import ArrayDiff.Proofs.Demand
import ArrayDiff.Proofs.Pairing

/-!
# Evaluation without errors

An expression evaluates to a number when every variable that is met has a value and every read has an answer
(`Expr.Evaluates`). The smart constructors keep this: they leave operands out, but bring in no reads and no divisions by
0, and so a simplified expression evaluates to the same number (`Expr.yields_simplify`).
-/

open ArrayDiff.Expr

namespace ArrayDiff

namespace Answers

variable {α : Type} [Scalar α]

/-- The answers of `P`, and 0 where there is none. -/
def filled (P : Answers α) : Valuation α where
  call f p := (P.call f p).getD Scalar.zero
  load b p := (P.load b p).getD Scalar.zero
  param i := (P.param i).getD Scalar.zero

theorem extendedBy_filled (P : Answers α) : P.ExtendedBy P.filled where
  call found := by simp [filled, found]
  load found := by simp [filled, found]
  param found := by simp [filled, found]

end Answers

namespace Expr

/-! ### Properties of what is evaluated -/

section Throughout

variable {κ α : Type} [Scalar α] [Embed κ α]

/-- Whatever is evaluated along with `e` has the property. -/
def Throughout (ρ : Valuation α) (env : Env α) (Q : Expr κ → Prop) (e : Expr κ) : Prop := ∀ x, Visits ρ env e x → Q x

variable {ρ : Valuation α} {env : Env α} {Q : Expr κ → Prop} {a b c t f e : Expr κ}

theorem Throughout.own (h : e.Throughout ρ env Q) : Q e := h e (.self e)

@[simp] theorem throughout_const {k : κ} : (const k).Throughout ρ env Q ↔ Q (const k) :=
  ⟨Throughout.own, fun own x visit => by cases visit; exact own⟩

@[simp] theorem throughout_var {x : Name} : (var x).Throughout ρ env Q ↔ Q (var x) :=
  ⟨Throughout.own, fun own y visit => by cases visit; exact own⟩

@[simp] theorem throughout_rvar {x : Name} : (rvar x).Throughout ρ env Q ↔ Q (rvar x) :=
  ⟨Throughout.own, fun own y visit => by cases visit; exact own⟩

@[simp] theorem throughout_param {i : ParamId} : (param i).Throughout ρ env Q ↔ Q (param i) :=
  ⟨Throughout.own, fun own y visit => by cases visit; exact own⟩

@[simp] theorem throughout_call {f : FuncId} {args : List (Expr κ)} :
    (call f args).Throughout ρ env Q ↔ Q (call f args) ∧ ∀ a ∈ args, a.Throughout ρ env Q := by
  refine ⟨fun h => ⟨h.own, fun a mem x visit => h x (.call mem visit)⟩, fun ⟨own, inner⟩ x visit => ?_⟩
  cases visit with
  | self => exact own
  | call mem visit => exact inner _ mem x visit

@[simp] theorem throughout_load {b : BufferId} {args : List (Expr κ)} :
    (load b args).Throughout ρ env Q ↔ Q (load b args) ∧ ∀ a ∈ args, a.Throughout ρ env Q := by
  refine ⟨fun h => ⟨h.own, fun a mem x visit => h x (.load mem visit)⟩, fun ⟨own, inner⟩ x visit => ?_⟩
  cases visit with
  | self => exact own
  | load mem visit => exact inner _ mem x visit

@[simp] theorem throughout_unary {op : UnaryOp} :
    (unary op a).Throughout ρ env Q ↔ Q (unary op a) ∧ a.Throughout ρ env Q := by
  refine ⟨fun h => ⟨h.own, fun x visit => h x (.unary visit)⟩, fun ⟨own, inner⟩ x visit => ?_⟩
  cases visit with
  | self => exact own
  | unary visit => exact inner x visit

@[simp] theorem throughout_not : (not a).Throughout ρ env Q ↔ Q (not a) ∧ a.Throughout ρ env Q := by
  refine ⟨fun h => ⟨h.own, fun x visit => h x (.not visit)⟩, fun ⟨own, inner⟩ x visit => ?_⟩
  cases visit with
  | self => exact own
  | not visit => exact inner x visit

@[simp] theorem throughout_binary {op : BinaryOp} :
    (binary op a b).Throughout ρ env Q ↔ Q (binary op a b) ∧ a.Throughout ρ env Q ∧ b.Throughout ρ env Q := by
  refine ⟨fun h => ⟨h.own, fun x visit => h x (.binaryLeft visit), fun x visit => h x (.binaryRight visit)⟩,
    fun ⟨own, left, right⟩ x visit => ?_⟩
  cases visit with
  | self => exact own
  | binaryLeft visit => exact left x visit
  | binaryRight visit => exact right x visit

@[simp] theorem throughout_compare {op : Comparison} :
    (compare op a b).Throughout ρ env Q ↔ Q (compare op a b) ∧ a.Throughout ρ env Q ∧ b.Throughout ρ env Q := by
  refine ⟨fun h => ⟨h.own, fun x visit => h x (.compareLeft visit), fun x visit => h x (.compareRight visit)⟩,
    fun ⟨own, left, right⟩ x visit => ?_⟩
  cases visit with
  | self => exact own
  | compareLeft visit => exact left x visit
  | compareRight visit => exact right x visit

@[simp] theorem throughout_and : (and a b).Throughout ρ env Q ↔
    Q (and a b) ∧ a.Throughout ρ env Q ∧ (Scalar.isZero (a.value ρ env) = false → b.Throughout ρ env Q) := by
  refine ⟨fun h => ⟨h.own, fun x visit => h x (.andLeft visit), fun holds x visit => h x (.andRight holds visit)⟩,
    fun ⟨own, left, right⟩ x visit => ?_⟩
  cases visit with
  | self => exact own
  | andLeft visit => exact left x visit
  | andRight holds visit => exact right holds x visit

@[simp] theorem throughout_or : (or a b).Throughout ρ env Q ↔
    Q (or a b) ∧ a.Throughout ρ env Q ∧ (Scalar.isZero (a.value ρ env) = true → b.Throughout ρ env Q) := by
  refine ⟨fun h => ⟨h.own, fun x visit => h x (.orLeft visit), fun fails x visit => h x (.orRight fails visit)⟩,
    fun ⟨own, left, right⟩ x visit => ?_⟩
  cases visit with
  | self => exact own
  | orLeft visit => exact left x visit
  | orRight fails visit => exact right fails x visit

@[simp] theorem throughout_select : (select c t f).Throughout ρ env Q ↔
    Q (select c t f) ∧ c.Throughout ρ env Q ∧ (Scalar.isZero (c.value ρ env) = false → t.Throughout ρ env Q) ∧
      (Scalar.isZero (c.value ρ env) = true → f.Throughout ρ env Q) := by
  refine ⟨fun h => ⟨h.own, fun x visit => h x (.condition visit), fun holds x visit => h x (.onTrue holds visit),
    fun fails x visit => h x (.onFalse fails visit)⟩, fun ⟨own, condition, onTrue, onFalse⟩ x visit => ?_⟩
  cases visit with
  | self => exact own
  | condition visit => exact condition x visit
  | onTrue holds visit => exact onTrue holds x visit
  | onFalse fails visit => exact onFalse fails x visit

end Throughout

end Expr

variable {K : Type} [Field K] [LinearOrder K] [FloorRing K] [Transcendental K]

omit [Field K] [LinearOrder K] [FloorRing K] [Transcendental K] in
@[simp] theorem embed_self (x : K) : (Embed.embed x : K) = x := rfl

namespace Expr

/-- Evaluating `e` meets neither an error nor a division by 0. -/
structure Evaluates (P : Answers K) (env : Env K) (e : Expr K) : Prop where
  isSome : (e.value? P env).isSome
  divisor {a b : Expr K} : Visits P.filled env e (binary .div a b) → b.value P.filled env ≠ 0

/-- What the evaluation of a node asks for by itself: a value for a variable, an answer to a read, and a divisor that is
not 0. -/
def Sound (P : Answers K) (env : Env K) : Expr K → Prop
  | var x => (env.vars.lookup x).isSome
  | rvar x => (env.rvars.lookup x).isSome
  | param i => (P.param i).isSome
  | call f args => (P.call f (position P.filled env args)).isSome
  | load b args => (P.load b (position P.filled env args)).isSome
  | binary op _ b => op = .div → b.value P.filled env ≠ 0
  | _ => True

variable {P : Answers K} {env : Env K} {a b c t f e : Expr K} {x y z : K}

abbrev Runs (P : Answers K) (env : Env K) (e : Expr K) : Prop := e.Throughout P.filled env (Sound P env)

theorem position?_of_values {args : List (Expr K)} (values : ∀ a ∈ args, a.value? P env = some (a.value P.filled env)) :
    position? P env args = some (position P.filled env args) := by
  induction args with
  | nil => rfl
  | cons a args ih =>
    refine Option.bind_eq_some_iff.mpr ⟨_, values a List.mem_cons_self, ?_⟩
    exact Option.bind_eq_some_iff.mpr ⟨_, ih fun b mem => values b (List.mem_cons_of_mem _ mem), rfl⟩

/-- An evaluation in which all nodes get what they ask for comes to a value. -/
theorem value?_of_runs (runs : e.Runs P env) : e.value? P env = some (e.value P.filled env) := by
  have ext := P.extendedBy_filled
  induction e with
  | const k => rfl
  | var x =>
    obtain ⟨v, found⟩ := Option.isSome_iff_exists.mp runs.own
    have answered : (var x : Expr K).value? P env = some v := by simp [value?, eval, found]
    rw [answered, value_of_value? ext answered]
  | rvar x =>
    obtain ⟨v, found⟩ := Option.isSome_iff_exists.mp runs.own
    have answered : (rvar x : Expr K).value? P env = some v := by simp [value?, eval, found]
    rw [answered, value_of_value? ext answered]
  | param i =>
    obtain ⟨v, found⟩ := Option.isSome_iff_exists.mp runs.own
    rw [value_param, ext.param found]
    exact found
  | call f args ih =>
    obtain ⟨own, inner⟩ := throughout_call.mp runs
    obtain ⟨v, found⟩ := Option.isSome_iff_exists.mp own
    rw [value_call, ext.call found]
    exact Option.bind_eq_some_iff.mpr ⟨_, position?_of_values fun a mem => ih a mem (inner a mem), found⟩
  | load b args ih =>
    obtain ⟨own, inner⟩ := throughout_load.mp runs
    obtain ⟨v, found⟩ := Option.isSome_iff_exists.mp own
    rw [value_load, ext.load found]
    exact Option.bind_eq_some_iff.mpr ⟨_, position?_of_values fun a mem => ih a mem (inner a mem), found⟩
  | unary op a ih => exact Option.bind_eq_some_iff.mpr ⟨_, ih (throughout_unary.mp runs).2, rfl⟩
  | not a ih => exact Option.bind_eq_some_iff.mpr ⟨_, ih (throughout_not.mp runs).2, rfl⟩
  | binary op a b iha ihb =>
    obtain ⟨-, left, right⟩ := throughout_binary.mp runs
    exact Option.bind_eq_some_iff.mpr ⟨_, iha left, Option.bind_eq_some_iff.mpr ⟨_, ihb right, rfl⟩⟩
  | compare op a b iha ihb =>
    obtain ⟨-, left, right⟩ := throughout_compare.mp runs
    exact Option.bind_eq_some_iff.mpr ⟨_, iha left, Option.bind_eq_some_iff.mpr ⟨_, ihb right, rfl⟩⟩
  | and a b iha ihb =>
    obtain ⟨-, left, right⟩ := throughout_and.mp runs
    refine Option.bind_eq_some_iff.mpr ⟨_, iha left, ?_⟩
    rw [value_and]
    split
    · rfl
    · rename_i holds
      exact Option.bind_eq_some_iff.mpr ⟨_, ihb (right (Bool.eq_false_iff.mpr holds)), rfl⟩
  | or a b iha ihb =>
    obtain ⟨-, left, right⟩ := throughout_or.mp runs
    refine Option.bind_eq_some_iff.mpr ⟨_, iha left, ?_⟩
    rw [value_or]
    split
    · rename_i fails
      exact Option.bind_eq_some_iff.mpr ⟨_, ihb (right fails), rfl⟩
    · rfl
  | select c t f ihc iht ihf =>
    obtain ⟨-, condition, onTrue, onFalse⟩ := throughout_select.mp runs
    refine Option.bind_eq_some_iff.mpr ⟨_, ihc condition, ?_⟩
    rw [value_select]
    split
    · rename_i fails
      exact ihf (onFalse fails)
    · rename_i holds
      exact iht (onTrue (Bool.eq_false_iff.mpr holds))

theorem evaluates_iff : e.Evaluates P env ↔ e.Runs P env := by
  constructor
  · intro h x visit
    obtain ⟨v, value⟩ := Option.isSome_iff_exists.mp h.isSome
    obtain ⟨w, found⟩ := value?_of_visits P.extendedBy_filled visit value
    have performed {r : Read K} (read : x.read? = some r) : P.has r.target (position P.filled env r.args) :=
      has_of_performs P.extendedBy_filled value ⟨x, r, visit, read, rfl, rfl⟩
    cases x with
    | var x | rvar x =>
      unfold value? eval at found
      refine Option.isSome_iff_ne_none.mpr fun none => ?_
      rw [none] at found
      cases found
    | param i => exact performed rfl
    | call f args => exact performed rfl
    | load b args => exact performed rfl
    | binary op a b =>
      rintro rfl
      exact h.divisor visit
    | _ => trivial
  · intro runs
    refine ⟨?_, fun visit => runs _ visit rfl⟩
    rw [value?_of_runs runs]
    rfl

/-- `e` evaluates to `v`. -/
structure Yields (P : Answers K) (env : Env K) (e : Expr K) (v : K) : Prop where
  runs : e.Runs P env
  value : e.value P.filled env = v

theorem Yields.of_runs (runs : e.Runs P env) : e.Yields P env (e.value P.filled env) := ⟨runs, rfl⟩

theorem runs_const (k : K) : (const k).Runs P env := throughout_const.mpr trivial

theorem runs_unary {op : UnaryOp} : (unary op a).Runs P env ↔ a.Runs P env :=
  throughout_unary.trans (and_iff_right trivial)

theorem runs_binary {op : BinaryOp} : (binary op a b).Runs P env ↔
    (op = .div → b.value P.filled env ≠ 0) ∧ a.Runs P env ∧ b.Runs P env := throughout_binary

theorem runs_compare {op : Comparison} : (compare op a b).Runs P env ↔ a.Runs P env ∧ b.Runs P env :=
  throughout_compare.trans (and_iff_right trivial)

theorem runs_not : (not a).Runs P env ↔ a.Runs P env := throughout_not.trans (and_iff_right trivial)

theorem runs_and : (and a b).Runs P env ↔ a.Runs P env ∧ (a.value P.filled env ≠ 0 → b.Runs P env) := by
  refine throughout_and.trans ((and_iff_right trivial).trans ?_)
  simp [Runs]

theorem runs_or : (or a b).Runs P env ↔ a.Runs P env ∧ (a.value P.filled env = 0 → b.Runs P env) := by
  refine throughout_or.trans ((and_iff_right trivial).trans ?_)
  simp [Runs]

theorem runs_select : (select c t f).Runs P env ↔ c.Runs P env ∧
    (c.value P.filled env ≠ 0 → t.Runs P env) ∧ (c.value P.filled env = 0 → f.Runs P env) := by
  refine throughout_select.trans ((and_iff_right trivial).trans ?_)
  simp [Runs]

theorem Yields.zero : (Expr.zero : Expr K).Yields P env 0 := ⟨runs_const _, value_zero⟩

theorem Yields.one : (Expr.one : Expr K).Yields P env 1 := ⟨runs_const _, value_one⟩

theorem Yields.of_isZero (h : a.Yields P env x) (zero : a.isZero = true) : x = 0 :=
  h.value.symm.trans (value_of_isZero zero)

theorem Yields.of_isOne (h : a.Yields P env x) (one : a.isOne = true) : x = 1 :=
  h.value.symm.trans (value_of_isOne one)

theorem value_and_of_isTruth (truth : a.value P.filled env ≠ 0 → IsTruth (b.value P.filled env)) :
    (and a b).value P.filled env = if a.value P.filled env = 0 then 0 else b.value P.filled env := by
  rw [value_and, exact_isZero]
  by_cases zero : a.value P.filled env = 0
  · simp [zero]
  · rcases truth zero with value | value <;> simp [zero, value]

theorem value_or_of_isTruth (truth : a.value P.filled env = 0 → IsTruth (b.value P.filled env)) :
    (or a b).value P.filled env = if a.value P.filled env = 0 then b.value P.filled env else 1 := by
  rw [value_or, exact_isZero]
  by_cases zero : a.value P.filled env = 0
  · rcases truth zero with value | value <;> simp [zero, value]
  · simp [zero]

end Expr

namespace Smart

variable {P : Answers K} {env : Env K} {a b c t f : Expr K} {x y z : K}

theorem yields_unary (op : UnaryOp) (h : a.Yields P env x) : (unary op a).Yields P env (op.apply x) := by
  have node : (Expr.unary op a).Yields P env (op.apply x) := ⟨runs_unary.mpr h.runs, congrArg op.apply h.value⟩
  unfold unary
  split
  · exact ⟨runs_const _, congrArg op.apply h.value⟩
  · split
    · rename_i inner isNeg
      subst isNeg
      exact ⟨runs_unary.mp h.runs, by rw [← h.value]; exact (neg_neg _).symm⟩
    · exact node
  · exact node

theorem yields_neg (h : a.Yields P env x) : (neg a).Yields P env (-x) := yields_unary .neg h

theorem yields_node (op : BinaryOp) (ha : a.Yields P env x) (hb : b.Yields P env y) (nonzero : op = .div → y ≠ 0) :
    (Expr.binary op a b).Yields P env (op.apply x y) :=
  ⟨runs_binary.mpr ⟨fun div => hb.value ▸ nonzero div, ha.runs, hb.runs⟩, congrArg₂ op.apply ha.value hb.value⟩

theorem yields_fold (op : BinaryOp) {k l : K} (ha : a.Yields P env x) (hb : b.Yields P env y)
    (foundA : a.const? = some k) (foundB : b.const? = some l) : (const (op.apply k l)).Yields P env (op.apply x y) := by
  obtain rfl := const?_eq_some foundA
  obtain rfl := const?_eq_some foundB
  exact ⟨runs_const _, congrArg₂ op.apply ha.value hb.value⟩

theorem yields_add (ha : a.Yields P env x) (hb : b.Yields P env y) : (add a b).Yields P env (x + y) := by
  refine ⟨?_, by rw [value_add, ha.value, hb.value]⟩
  unfold add
  split
  · exact runs_const _
  split
  · exact hb.runs
  split
  · exact ha.runs
  · exact (yields_node .add ha hb nofun).runs

theorem yields_mul (ha : a.Yields P env x) (hb : b.Yields P env y) : (mul a b).Yields P env (x * y) := by
  refine ⟨?_, by rw [value_mul, ha.value, hb.value]⟩
  unfold mul
  split
  · exact runs_const _
  split
  · exact runs_const _
  split
  · exact hb.runs
  split
  · exact ha.runs
  split
  · exact (yields_neg hb).runs
  split
  · exact (yields_neg ha).runs
  · exact (yields_node .mul ha hb nofun).runs

theorem yields_sub (ha : a.Yields P env x) (hb : b.Yields P env y) : (sub a b).Yields P env (x - y) := by
  unfold sub
  split
  · rename_i foundA foundB
    exact yields_fold .sub ha hb foundA foundB
  split
  · rename_i zero
    rw [hb.of_isZero zero, sub_zero]
    exact ha
  split
  · rename_i zero
    rw [ha.of_isZero zero, zero_sub]
    exact yields_neg hb
  · exact yields_node .sub ha hb nofun

theorem yields_div (ha : a.Yields P env x) (hb : b.Yields P env y) (nonzero : y ≠ 0) :
    (div a b).Yields P env (x / y) := by
  have opened : (divOpen a b).Yields P env (x / y) := by
    unfold divOpen
    split
    · rename_i zero
      rw [ha.of_isZero zero, zero_div]
      exact Yields.zero
    split
    · rename_i one
      rw [hb.of_isOne one, div_one]
      exact ha
    · exact yields_node .div ha hb fun _ => nonzero
  unfold div
  split
  · rename_i foundA foundB
    split
    · exact opened
    · exact yields_fold .div ha hb foundA foundB
  · exact opened

theorem yields_pow (ha : a.Yields P env x) (hb : b.Yields P env y) :
    (pow a b).Yields P env (Transcendental.pow x y) := by
  unfold pow
  split
  · rename_i foundA foundB
    exact yields_fold .pow ha hb foundA foundB
  split
  · rename_i one
    rw [hb.of_isOne one, Transcendental.pow_one]
    exact ha
  split
  · rename_i zero
    rw [hb.of_isZero zero, Transcendental.pow_zero]
    exact Yields.one
  · exact yields_node .pow ha hb nofun

theorem yields_foldOnly (op : BinaryOp) (ha : a.Yields P env x) (hb : b.Yields P env y) (other : op ≠ .div) :
    (foldOnly op a b).Yields P env (op.apply x y) := by
  unfold foldOnly
  split
  · rename_i foundA foundB
    exact yields_fold op ha hb foundA foundB
  · exact yields_node op ha hb fun div => absurd div other

theorem yields_binary (op : BinaryOp) (ha : a.Yields P env x) (hb : b.Yields P env y) (nonzero : op = .div → y ≠ 0) :
    (binary op a b).Yields P env (op.apply x y) := by
  cases op with
  | add => exact yields_add ha hb
  | sub => exact yields_sub ha hb
  | mul => exact yields_mul ha hb
  | div => exact yields_div ha hb (nonzero rfl)
  | pow => exact yields_pow ha hb
  | min => exact yields_foldOnly .min ha hb nofun
  | max => exact yields_foldOnly .max ha hb nofun

theorem yields_truth (holds : Bool) : (truth holds : Expr K).Yields P env (Scalar.ofBool holds) := ⟨runs_const _, rfl⟩

theorem yields_compare (op : Comparison) (ha : a.Yields P env x) (hb : b.Yields P env y) :
    (compare op a b).Yields P env (Scalar.ofBool (op.holds x y)) := by
  obtain ⟨runsA, rfl⟩ := ha
  obtain ⟨runsB, rfl⟩ := hb
  unfold compare
  split
  · rename_i foundA foundB
    rw [const?_eq_some foundA, const?_eq_some foundB]
    exact yields_truth _
  · exact ⟨runs_compare.mpr ⟨runsA, runsB⟩, rfl⟩

theorem yields_not (ha : a.Yields P env x) : (not a).Yields P env (Scalar.ofBool (Scalar.isZero x)) := by
  obtain ⟨runs, rfl⟩ := ha
  unfold not
  split
  · rename_i found
    rw [const?_eq_some found]
    exact yields_truth _
  · exact ⟨runs_not.mpr runs, rfl⟩

theorem yields_select (hc : c.Yields P env z) (onTrue : z ≠ 0 → t.Yields P env x) (onFalse : z = 0 → f.Yields P env x) :
    (select c t f).Yields P env x := by
  unfold select
  split
  · rename_i k found
    have value : k = z := by simpa [const?_eq_some found] using hc.value
    subst value
    split
    · rename_i zero
      exact onFalse (by simpa using zero)
    · rename_i nonzero
      exact onTrue (by simpa using nonzero)
  split
  · rename_i same
    by_cases zero : z = 0
    · rw [eq_of_same same]
      exact onFalse zero
    · exact onTrue zero
  · refine ⟨runs_select.mpr ⟨hc.runs, fun nonzero => ?_, fun zero => ?_⟩, ?_⟩
    · exact (onTrue (hc.value ▸ nonzero)).runs
    · exact (onFalse (hc.value ▸ zero)).runs
    · rw [Expr.value_select, hc.value, exact_isZero]
      by_cases zero : z = 0
      · simpa [zero] using (onFalse zero).value
      · simpa [zero] using (onTrue zero).value

theorem nonzero_of_isTrue (h : a.Yields P env x) (holds : isTrue a = true) : x ≠ 0 := by
  obtain ⟨-, rfl⟩ := h
  cases a with
  | const k => simpa [isTrue, Expr.const?] using holds
  | _ => cases holds

theorem yields_and (ha : a.Yields P env x) (hb : x ≠ 0 → b.Yields P env y) (tx : IsTruth x) (ty : x ≠ 0 → IsTruth y) :
    (and a b).Yields P env (if x = 0 then 0 else y) := by
  unfold and
  split
  · rename_i zero
    have vanishes : (if x = 0 then 0 else y) = 0 := by
      split
      · rfl
      · rename_i nonzero
        rcases (Bool.or_eq_true _ _).mp zero with zero | zero
        · exact absurd (ha.of_isZero zero) nonzero
        · exact (hb nonzero).of_isZero zero
    rw [vanishes]
    exact Yields.zero
  split
  · rename_i holds
    have nonzero := nonzero_of_isTrue ha holds
    rw [if_neg nonzero]
    exact hb nonzero
  split
  · rename_i holds
    have same : (if x = 0 then 0 else y) = x := by
      split
      · rename_i zero
        exact zero.symm
      · rename_i nonzero
        rw [tx.resolve_left nonzero, (ty nonzero).resolve_left (nonzero_of_isTrue (hb nonzero) holds)]
    rw [same]
    exact ha
  · refine ⟨runs_and.mpr ⟨ha.runs, fun nonzero => (hb (ha.value ▸ nonzero)).runs⟩, ?_⟩
    rw [value_and, ha.value, exact_isZero]
    by_cases zero : x = 0
    · simp [zero]
    · rcases ty zero with rfl | rfl <;> simp [zero, (hb zero).value]

theorem yields_or (ha : a.Yields P env x) (hb : x = 0 → b.Yields P env y) (tx : IsTruth x) (ty : x = 0 → IsTruth y) :
    (or a b).Yields P env (if x = 0 then y else 1) := by
  unfold or
  split
  · rename_i holds
    have certain : (if x = 0 then y else 1) = 1 := by
      split
      · rename_i zero
        rcases (Bool.or_eq_true _ _).mp holds with holds | holds
        · exact absurd zero (nonzero_of_isTrue ha holds)
        · exact (ty zero).resolve_left (nonzero_of_isTrue (hb zero) holds)
      · rfl
    rw [certain]
    exact Yields.one
  split
  · rename_i isZero
    have zero := ha.of_isZero isZero
    rw [if_pos zero]
    exact hb zero
  split
  · rename_i isZero
    have same : (if x = 0 then y else 1) = x := by
      split
      · rename_i zero
        rw [zero, (hb zero).of_isZero isZero]
      · rename_i nonzero
        exact (tx.resolve_left nonzero).symm
    rw [same]
    exact ha
  · refine ⟨runs_or.mpr ⟨ha.runs, fun zero => (hb (ha.value ▸ zero)).runs⟩, ?_⟩
    rw [value_or, ha.value, exact_isZero]
    by_cases zero : x = 0
    · rcases ty zero with rfl | rfl <;> simp [zero, (hb zero).value]
    · simp [zero]

end Smart

namespace Expr

variable {P : Answers K} {env : Env K} {a b c t f e : Expr K}

/-- What is asked of the operands of a conjunction or a disjunction: those that are evaluated have truth values. -/
def Decided (ρ : Valuation K) (env : Env K) : Expr K → Prop
  | and a b => IsTruth (a.value ρ env) ∧ (a.value ρ env ≠ 0 → IsTruth (b.value ρ env))
  | or a b => IsTruth (a.value ρ env) ∧ (a.value ρ env = 0 → IsTruth (b.value ρ env))
  | _ => True

theorem yields_args {args : List (Expr K)} (each : ∀ a ∈ args, a.simplify.Yields P env (a.value P.filled env)) :
    position P.filled env (args.map simplify) = position P.filled env args ∧
      ∀ a ∈ args.map simplify, a.Runs P env := by
  refine ⟨?_, fun a mem => ?_⟩
  · unfold position
    rw [List.map_map]
    exact List.map_congr_left fun a mem => congrArg Scalar.index (each a mem).value
  · obtain ⟨a, listed, rfl⟩ := List.mem_map.mp mem
    exact (each a listed).runs

theorem yields_simplify (runs : e.Runs P env) (logic : e.Throughout P.filled env (Decided P.filled env)) :
    e.simplify.Yields P env (e.value P.filled env) := by
  induction e with
  | const _ | var _ | rvar _ | param _ => exact Yields.of_runs runs
  | call f args ih =>
    obtain ⟨own, inner⟩ := throughout_call.mp runs
    have logic := (throughout_call.mp logic).2
    obtain ⟨same, runs⟩ := yields_args fun a mem => ih a mem (inner a mem) (logic a mem)
    rw [simplify, simplifyList_eq_map]
    refine ⟨throughout_call.mpr ⟨?_, runs⟩, ?_⟩
    · change (P.call f _).isSome
      rw [same]
      exact own
    · rw [value_call, value_call, same]
  | load b args ih =>
    obtain ⟨own, inner⟩ := throughout_load.mp runs
    have logic := (throughout_load.mp logic).2
    obtain ⟨same, runs⟩ := yields_args fun a mem => ih a mem (inner a mem) (logic a mem)
    rw [simplify, simplifyList_eq_map]
    refine ⟨throughout_load.mpr ⟨?_, runs⟩, ?_⟩
    · change (P.load b _).isSome
      rw [same]
      exact own
    · rw [value_load, value_load, same]
  | unary op a ih => exact Smart.yields_unary op (ih (runs_unary.mp runs) (throughout_unary.mp logic).2)
  | not a ih => exact Smart.yields_not (ih (runs_not.mp runs) (throughout_not.mp logic).2)
  | binary op a b iha ihb =>
    obtain ⟨nonzero, left, right⟩ := runs_binary.mp runs
    obtain ⟨-, logicLeft, logicRight⟩ := throughout_binary.mp logic
    exact Smart.yields_binary op (iha left logicLeft) (ihb right logicRight) nonzero
  | compare op a b iha ihb =>
    obtain ⟨left, right⟩ := runs_compare.mp runs
    obtain ⟨-, logicLeft, logicRight⟩ := throughout_compare.mp logic
    exact Smart.yields_compare op (iha left logicLeft) (ihb right logicRight)
  | and a b iha ihb =>
    obtain ⟨left, right⟩ := runs_and.mp runs
    obtain ⟨⟨truth, truth'⟩, logicLeft, logicRight⟩ := throughout_and.mp logic
    simp only [exact_isZero, decide_eq_false_iff_not] at logicRight
    rw [value_and_of_isTruth truth']
    exact Smart.yields_and (iha left logicLeft) (fun holds => ihb (right holds) (logicRight holds)) truth truth'
  | or a b iha ihb =>
    obtain ⟨left, right⟩ := runs_or.mp runs
    obtain ⟨⟨truth, truth'⟩, logicLeft, logicRight⟩ := throughout_or.mp logic
    simp only [exact_isZero, decide_eq_true_eq] at logicRight
    rw [value_or_of_isTruth truth']
    exact Smart.yields_or (iha left logicLeft) (fun fails => ihb (right fails) (logicRight fails)) truth truth'
  | select c t f ihc iht ihf =>
    obtain ⟨condition, onTrue, onFalse⟩ := runs_select.mp runs
    obtain ⟨-, logicCondition, logicTrue, logicFalse⟩ := throughout_select.mp logic
    simp only [exact_isZero, decide_eq_true_eq, decide_eq_false_iff_not] at logicTrue logicFalse
    rw [value_select]
    refine Smart.yields_select (ihc condition logicCondition) (fun nonzero => ?_) fun zero => ?_
    · simpa [nonzero] using iht (onTrue nonzero) (logicTrue nonzero)
    · simpa [zero] using ihf (onFalse zero) (logicFalse zero)

end Expr

end ArrayDiff
