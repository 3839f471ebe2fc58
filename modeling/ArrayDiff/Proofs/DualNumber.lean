import Mathlib.Algebra.DualNumber
import Mathlib.Tactic.FieldSimp
import ArrayDiff.Proofs.Success

/-!
# Dual numbers

Evaluation over the numbers `a + bε` with `ε² = 0`, in which every read carries its direction as the coefficient of `ε`
(`Expr.dual?`). Wherever an expression of rational arithmetic can be evaluated, so can its tangent, and the tangent is
that coefficient (`Expr.tangent_dual`).
-/

namespace ArrayDiff

open TrivSqZeroExt (inl inr)

variable {K : Type} [Field K] [LinearOrder K] [FloorRing K] [Transcendental K]

/-! ### Operators of rational arithmetic -/

namespace UnaryOp

def isRational : UnaryOp → Bool
  | neg | abs | floor => true
  | _ => false

/-- The operator on dual numbers, if it belongs to rational arithmetic: `abs` has slope 1 at 0, and `floor` has slope 0
everywhere. -/
def dual? (op : UnaryOp) (x : DualNumber K) : Option (DualNumber K) :=
  match op with
  | neg => some (-x)
  | abs => some (if 0 ≤ x.fst then x else -x)
  | floor => some (inl (⌊x.fst⌋ : ℤ))
  | _ => none

theorem dual?_rate {op : UnaryOp} (rational : op.isRational) (x : DualNumber K) :
    ∃ w, op.dual? x = some w ∧ w.fst = op.apply x.fst ∧ w.snd = op.rate x.fst * x.snd := by
  cases op with
  | neg => exact ⟨_, rfl, rfl, by simp [rate]⟩
  | abs =>
    refine ⟨_, rfl, apply_ite TrivSqZeroExt.fst _ _ _, ?_⟩
    by_cases nonneg : 0 ≤ x.fst <;> simp [rate, nonneg]
  | floor => exact ⟨_, rfl, rfl, by simp [rate]⟩
  | _ => cases rational

end UnaryOp

namespace BinaryOp

def isRational : BinaryOp → Bool
  | pow => false
  | _ => true

/-- The operator on dual numbers, if it belongs to rational arithmetic: a tie of the smaller or the larger goes to the
left operand, and a divisor has to differ from 0 apart from `ε`. -/
def dual? (op : BinaryOp) (x y : DualNumber K) : Option (DualNumber K) :=
  match op with
  | add => some (x + y)
  | sub => some (x - y)
  | mul => some (x * y)
  | div => if y.fst = 0 then none else some (x * y⁻¹)
  | min => some (if x.fst ≤ y.fst then x else y)
  | max => some (if y.fst ≤ x.fst then x else y)
  | pow => none

theorem dual?_rates {op : BinaryOp} (rational : op.isRational) (x y : DualNumber K) (nonzero : op = .div → y.fst ≠ 0) :
    ∃ w, op.dual? x y = some w ∧ w.fst = op.apply x.fst y.fst ∧
      w.snd = (op.rates x.fst y.fst).1 * x.snd + (op.rates x.fst y.fst).2 * y.snd := by
  cases op with
  | add => exact ⟨_, rfl, rfl, by simp [rates]⟩
  | sub => exact ⟨_, rfl, rfl, by simp [rates, sub_eq_add_neg]⟩
  | mul => exact ⟨_, rfl, rfl, by simp [rates]; ring⟩
  | div =>
    have nonzero := nonzero rfl
    refine ⟨_, if_neg nonzero, ?_, ?_⟩
    · simp [apply, Scalar.div, div_eq_mul_inv]
    · simp only [rates, TrivSqZeroExt.snd_mul, TrivSqZeroExt.fst_inv, TrivSqZeroExt.snd_inv, smul_eq_mul,
        MulOpposite.smul_eq_mul_unop, MulOpposite.unop_op]
      field_simp
      ring
  | min =>
    refine ⟨_, rfl, apply_ite TrivSqZeroExt.fst _ _ _, ?_⟩
    by_cases le : x.fst ≤ y.fst <;> simp [rates, le]
  | max =>
    refine ⟨_, rfl, apply_ite TrivSqZeroExt.fst _ _ _, ?_⟩
    by_cases le : y.fst ≤ x.fst <;> simp [rates, le]
  | pow => cases rational

end BinaryOp

namespace Expr

/-! ### Evaluation over dual numbers -/

/-- Apart from the operands, the expression is built from operators of rational arithmetic. -/
def RationalNode {κ : Type} : Expr κ → Prop
  | unary op _ => op.isRational
  | binary op _ _ => op.isRational
  | _ => True

/-- The value of a read with the value of its direction as the coefficient of `ε`; without direction it does not move. -/
def carried? (P : Answers K) (env : Env K) (direction : Read K → Option (Expr K)) (r : Read K) :
    Option (DualNumber K) := do
  let v ← r.toExpr.value? P env
  let d ← ((direction r).getD .zero).value? P env
  return inl v + inr d

/-- Evaluation over dual numbers. Index arguments and conditions, comparisons and logic go by the part without `ε`. -/
def dual? (P : Answers K) (env : Env K) (direction : Read K → Option (Expr K)) : Expr K → Option (DualNumber K)
  | const k => some (inl k)
  | var x => (env.vars.lookup x).map inl
  | rvar x => (env.rvars.lookup x).map inl
  | param p => carried? P env direction ⟨.param p, []⟩
  | call f args => carried? P env direction ⟨.func f, args⟩
  | load b args => carried? P env direction ⟨.buffer b, args⟩
  | unary op a => do
    let x ← a.dual? P env direction
    op.dual? x
  | binary op a b => do
    let x ← a.dual? P env direction
    let y ← b.dual? P env direction
    op.dual? x y
  | compare op a b => do
    let x ← a.dual? P env direction
    let y ← b.dual? P env direction
    return inl (Scalar.ofBool (op.holds x.fst y.fst))
  | and a b => do
    let x ← a.dual? P env direction
    if x.fst = 0 then return 0
    else
      let y ← b.dual? P env direction
      return inl (Scalar.ofBool (y.fst ≠ 0))
  | or a b => do
    let x ← a.dual? P env direction
    if x.fst = 0 then
      let y ← b.dual? P env direction
      return inl (Scalar.ofBool (y.fst ≠ 0))
    else return 1
  | not a => do
    let x ← a.dual? P env direction
    return inl (Scalar.ofBool (x.fst = 0))
  | select c t f => do
    let x ← c.dual? P env direction
    if x.fst = 0 then f.dual? P env direction else t.dual? P env direction

/-- The direction of a read evaluates. -/
def Directed (P : Answers K) (env : Env K) (direction : Read K → Option (Expr K)) (x : Expr K) : Prop :=
  ∀ r d, x.read? = some r → direction r = some d → d.Evaluates P env

variable {P : Answers K} {env : Env K} {direction : Read K → Option (Expr K)} {a b e : Expr K} {x y : K}

/-! ### Slopes -/

theorem Yields.minusOne : (const Scalar.minusOne : Expr K).Yields P env (-1) :=
  ⟨runs_const _, by simp [Scalar.minusOne, Scalar.ofInt]⟩

theorem yields_choice {c t f : Expr K} {p : Prop} [Decidable p] (hc : c.Yields P env (Scalar.ofBool (decide p)))
    (ht : t.Yields P env x) (hf : f.Yields P env y) : (Smart.select c t f).Yields P env (if p then x else y) := by
  by_cases holds : p
  · refine Smart.yields_select hc (fun _ => ?_) fun zero => ?_
    · rwa [if_pos holds]
    · simp [holds] at zero
  · refine Smart.yields_select hc (fun nonzero => ?_) fun _ => ?_
    · simp [holds] at nonzero
    · rwa [if_neg holds]

theorem yields_slope {op : UnaryOp} (rational : op.isRational) (ha : a.Yields P env x) :
    (op.slope a).Yields P env (op.rate x) := by
  cases op with
  | neg => exact Yields.minusOne
  | abs => exact yields_choice (p := 0 ≤ x) (Smart.yields_compare .ge ha Yields.zero) Yields.one Yields.minusOne
  | floor => exact Yields.zero
  | _ => cases rational

theorem yields_slopes {op : BinaryOp} (rational : op.isRational) (ha : a.Yields P env x) (hb : b.Yields P env y)
    (nonzero : op = .div → y ≠ 0) :
    (op.slopes a b).1.Yields P env (op.rates x y).1 ∧ (op.slopes a b).2.Yields P env (op.rates x y).2 := by
  cases op with
  | add => exact ⟨Yields.one, Yields.one⟩
  | sub => exact ⟨Yields.one, Yields.minusOne⟩
  | mul => exact ⟨hb, ha⟩
  | div =>
    have nonzero := nonzero rfl
    exact ⟨Smart.yields_div Yields.one hb nonzero,
      Smart.yields_div (Smart.yields_neg ha) (Smart.yields_mul hb hb) (mul_self_ne_zero.mpr nonzero)⟩
  | min =>
    have c : (Smart.compare .le a b).Yields P env (Scalar.ofBool (decide (x ≤ y))) := Smart.yields_compare .le ha hb
    simp only [BinaryOp.rates, apply_ite Prod.fst, apply_ite Prod.snd]
    exact ⟨yields_choice c Yields.one Yields.zero, yields_choice c Yields.zero Yields.one⟩
  | max =>
    have c : (Smart.compare .ge a b).Yields P env (Scalar.ofBool (decide (y ≤ x))) := Smart.yields_compare .ge ha hb
    simp only [BinaryOp.rates, apply_ite Prod.fst, apply_ite Prod.snd]
    exact ⟨yields_choice c Yields.one Yields.zero, yields_choice c Yields.zero Yields.one⟩
  | pow => cases rational

/-! ### The forward rule -/

theorem carried?_of_directed {r : Read K} (read : e.read? = some r) (runs : e.Runs P env)
    (directed : e.Directed P env direction) : ∃ w, carried? P env direction r = some w ∧ w.fst = e.value P.filled env ∧
      ((direction r).getD .zero).Yields P env w.snd := by
  have same : r.toExpr = e := by
    cases e <;> cases read <;> rfl
  have moves : ((direction r).getD .zero).Runs P env := by
    cases found : direction r with
    | none => exact runs_const _
    | some d => exact evaluates_iff.mp (directed r d read found)
  refine ⟨inl (e.value P.filled env) + inr (((direction r).getD .zero).value P.filled env), ?_, by simp, moves, by simp⟩
  refine Option.bind_eq_some_iff.mpr ⟨_, ?_, Option.bind_eq_some_iff.mpr ⟨_, value?_of_runs moves, rfl⟩⟩
  rw [same, value?_of_runs runs]

/-- The forward rule computes the coefficient of `ε`. -/
theorem dual?_tangent (rational : e.Everywhere RationalNode) (runs : e.Runs P env)
    (logic : e.Throughout P.filled env (Decided P.filled env))
    (directed : e.Throughout P.filled env (Directed P env direction)) :
    ∃ w, e.dual? P env direction = some w ∧ w.fst = e.value P.filled env ∧
      (e.tangent direction).Yields P env w.snd := by
  induction e with
  | const k => exact ⟨_, rfl, rfl, Yields.zero⟩
  | var x =>
    obtain ⟨v, found⟩ := Option.isSome_iff_exists.mp runs.own
    exact ⟨inl v, by simp [dual?, found], by simp [Env.var, found], Yields.zero⟩
  | rvar x =>
    obtain ⟨v, found⟩ := Option.isSome_iff_exists.mp runs.own
    exact ⟨inl v, by simp [dual?, found], by simp [Env.rvar, found], Yields.zero⟩
  | param i => exact carried?_of_directed rfl runs directed.own
  | call f args ih => exact carried?_of_directed rfl runs directed.own
  | load b args ih => exact carried?_of_directed rfl runs directed.own
  | unary op a ih =>
    obtain ⟨own, inner⟩ := (everywhere_one rfl).mp rational
    have runs := runs_unary.mp runs
    obtain ⟨w, dual, primal, tangent⟩ := ih inner runs (throughout_unary.mp logic).2 (throughout_unary.mp directed).2
    obtain ⟨w', applied, fst, snd⟩ := UnaryOp.dual?_rate own w
    refine ⟨w', Option.bind_eq_some_iff.mpr ⟨w, dual, applied⟩, by rw [fst, primal]; rfl, ?_⟩
    rw [snd, primal]
    exact Smart.yields_mul (yields_slope own (Yields.of_runs runs)) tangent
  | binary op a b iha ihb =>
    obtain ⟨own, innerA, innerB⟩ := (everywhere_two rfl).mp rational
    obtain ⟨nonzero, runsA, runsB⟩ := runs_binary.mp runs
    obtain ⟨-, logicA, logicB⟩ := throughout_binary.mp logic
    obtain ⟨-, directedA, directedB⟩ := throughout_binary.mp directed
    obtain ⟨v, dualA, primalA, tangentA⟩ := iha innerA runsA logicA directedA
    obtain ⟨w, dualB, primalB, tangentB⟩ := ihb innerB runsB logicB directedB
    obtain ⟨u, applied, fst, snd⟩ := BinaryOp.dual?_rates own v w fun div => primalB ▸ nonzero div
    refine ⟨u, Option.bind_eq_some_iff.mpr ⟨v, dualA, Option.bind_eq_some_iff.mpr ⟨w, dualB, applied⟩⟩,
      by rw [fst, primalA, primalB]; rfl, ?_⟩
    rw [snd, primalA, primalB]
    have slopes := yields_slopes own (Yields.of_runs runsA) (Yields.of_runs runsB) nonzero
    exact Smart.yields_add (Smart.yields_mul slopes.1 tangentA) (Smart.yields_mul slopes.2 tangentB)
  | compare op a b iha ihb =>
    obtain ⟨own, innerA, innerB⟩ := (everywhere_two rfl).mp rational
    obtain ⟨runsA, runsB⟩ := runs_compare.mp runs
    obtain ⟨-, logicA, logicB⟩ := throughout_compare.mp logic
    obtain ⟨-, directedA, directedB⟩ := throughout_compare.mp directed
    obtain ⟨v, dualA, primalA, -⟩ := iha innerA runsA logicA directedA
    obtain ⟨w, dualB, primalB, -⟩ := ihb innerB runsB logicB directedB
    refine ⟨_, Option.bind_eq_some_iff.mpr ⟨v, dualA, Option.bind_eq_some_iff.mpr ⟨w, dualB, rfl⟩⟩, ?_, Yields.zero⟩
    rw [primalA, primalB]
    rfl
  | and a b iha ihb =>
    obtain ⟨-, innerA, innerB⟩ := (everywhere_two rfl).mp rational
    obtain ⟨runsA, runsB⟩ := runs_and.mp runs
    obtain ⟨-, logicA, logicB⟩ := throughout_and.mp logic
    obtain ⟨-, directedA, directedB⟩ := throughout_and.mp directed
    simp only [exact_isZero, decide_eq_false_iff_not] at logicB directedB
    obtain ⟨v, dualA, primalA, -⟩ := iha innerA runsA logicA directedA
    by_cases zero : a.value P.filled env = 0
    · refine ⟨0, Option.bind_eq_some_iff.mpr ⟨v, dualA, if_pos (primalA.trans zero)⟩, ?_, Yields.zero⟩
      simp [zero]
    · obtain ⟨w, dualB, primalB, -⟩ := ihb innerB (runsB zero) (logicB zero) (directedB zero)
      refine ⟨inl (Scalar.ofBool (w.fst ≠ 0)), Option.bind_eq_some_iff.mpr ⟨v, dualA, ?_⟩, ?_, Yields.zero⟩
      · rw [if_neg (primalA ▸ zero)]
        exact Option.bind_eq_some_iff.mpr ⟨w, dualB, rfl⟩
      · simp [zero, primalB]
  | or a b iha ihb =>
    obtain ⟨-, innerA, innerB⟩ := (everywhere_two rfl).mp rational
    obtain ⟨runsA, runsB⟩ := runs_or.mp runs
    obtain ⟨-, logicA, logicB⟩ := throughout_or.mp logic
    obtain ⟨-, directedA, directedB⟩ := throughout_or.mp directed
    simp only [exact_isZero, decide_eq_true_eq] at logicB directedB
    obtain ⟨v, dualA, primalA, -⟩ := iha innerA runsA logicA directedA
    by_cases zero : a.value P.filled env = 0
    · obtain ⟨w, dualB, primalB, -⟩ := ihb innerB (runsB zero) (logicB zero) (directedB zero)
      refine ⟨inl (Scalar.ofBool (w.fst ≠ 0)), Option.bind_eq_some_iff.mpr ⟨v, dualA, ?_⟩, ?_, Yields.zero⟩
      · rw [if_pos (primalA.trans zero)]
        exact Option.bind_eq_some_iff.mpr ⟨w, dualB, rfl⟩
      · simp [zero, primalB]
    · refine ⟨1, Option.bind_eq_some_iff.mpr ⟨v, dualA, if_neg (primalA ▸ zero)⟩, ?_, Yields.zero⟩
      simp [zero]
  | not a ih =>
    obtain ⟨-, inner⟩ := (everywhere_one rfl).mp rational
    obtain ⟨v, dual, primal, -⟩ := ih inner (runs_not.mp runs) (throughout_not.mp logic).2 (throughout_not.mp directed).2
    refine ⟨_, Option.bind_eq_some_iff.mpr ⟨v, dual, rfl⟩, ?_, Yields.zero⟩
    simp [primal]
  | select c t f ihc iht ihf =>
    obtain ⟨-, innerC, innerT, innerF⟩ := (everywhere_three rfl).mp rational
    obtain ⟨runsC, runsT, runsF⟩ := runs_select.mp runs
    obtain ⟨-, logicC, logicT, logicF⟩ := throughout_select.mp logic
    obtain ⟨-, directedC, directedT, directedF⟩ := throughout_select.mp directed
    simp only [exact_isZero, decide_eq_true_eq, decide_eq_false_iff_not] at logicT logicF directedT directedF
    obtain ⟨v, dualC, primalC, -⟩ := ihc innerC runsC logicC directedC
    have condition := yields_simplify runsC logicC
    by_cases zero : c.value P.filled env = 0
    · obtain ⟨w, dual, primal, tangent⟩ := ihf innerF (runsF zero) (logicF zero) (directedF zero)
      refine ⟨w, Option.bind_eq_some_iff.mpr ⟨v, dualC, by rw [if_pos (primalC.trans zero), dual]⟩, ?_, ?_⟩
      · simpa [zero] using primal
      · exact Smart.yields_select condition (fun nonzero => absurd zero nonzero) fun _ => tangent
    · obtain ⟨w, dual, primal, tangent⟩ := iht innerT (runsT zero) (logicT zero) (directedT zero)
      refine ⟨w, Option.bind_eq_some_iff.mpr ⟨v, dualC, by rw [if_neg (primalC ▸ zero), dual]⟩, ?_, ?_⟩
      · simpa [zero] using primal
      · exact Smart.yields_select condition (fun _ => tangent) fun fails => absurd fails zero

/-- Where an expression of rational arithmetic and the directions of the reads that it performs evaluate, its tangent
evaluates too: to the coefficient of `ε` in the evaluation over dual numbers. -/
theorem tangent_dual (rational : e.Everywhere RationalNode) (evaluates : e.Evaluates P env)
    (logic : e.Throughout P.filled env (Decided P.filled env))
    (directed : e.Throughout P.filled env (Directed P env direction)) :
    ∃ w, e.dual? P env direction = some w ∧ e.value? P env = some w.fst ∧
      (e.tangent direction).value? P env = some w.snd ∧ (e.tangent direction).Evaluates P env := by
  have runs := evaluates_iff.mp evaluates
  obtain ⟨w, dual, primal, tangent⟩ := dual?_tangent rational runs logic directed
  refine ⟨w, dual, ?_, ?_, evaluates_iff.mpr tangent.runs⟩
  · rw [primal]
    exact value?_of_runs runs
  · rw [← tangent.value]
    exact value?_of_runs tangent.runs

end Expr

/-- `if weight < 2 and not x == 0 then |weight| / data(x) else data(9)`. -/
def slanted : Expr ℚ :=
  .select (.and (.compare .lt (.param ⟨0⟩) (.const 2)) (.not (.compare .eq (.var "x") (.const 0))))
    (.binary .div (.unary .abs (.param ⟨0⟩)) (.load ⟨0⟩ [.var "x"])) (.load ⟨0⟩ [.const 9])

namespace slanted

/-- The weight is -1, and the only element of `data` is a 2 at position 1. -/
def answers : Answers ℚ where
  call _ _ := none
  load _ p := if p = [1] then some 2 else none
  param _ := some (-1)

def env : Env ℚ := { vars := [("x", 1)] }

/-- The weight moves along the element, and the element along the weight. -/
def direction (r : Read ℚ) : Option (Expr ℚ) :=
  if r.target = .param ⟨0⟩ then some (.load ⟨0⟩ [.var "x"]) else some (.param ⟨0⟩)

/-- The quotient is 1/2, and moves by -2/2 along the weight and by 1/4 along the element. -/
theorem slope : ∃ w, slanted.dual? answers env direction = some w ∧ slanted.value? answers env = some w.fst ∧
    (slanted.tangent direction).value? answers env = some w.snd ∧ w.fst = 1 / 2 ∧ w.snd = -3 / 4 := by
  have rational : slanted.Everywhere Expr.RationalNode := by
    simp [Expr.Everywhere, slanted, Expr.nodes, Expr.nodesList, Expr.RationalNode, UnaryOp.isRational,
      BinaryOp.isRational]
  have below : Comparison.lt.holds (-1 : ℚ) 2 = true := by decide +kernel
  have apart : Comparison.eq.holds (1 : ℚ) 0 = false := by decide +kernel
  have index : Scalar.index (1 : ℚ) = 1 := by decide +kernel
  have evaluates : slanted.Evaluates answers env := by
    refine Expr.evaluates_iff.mpr ?_
    simp [slanted, Expr.Runs, Expr.Sound, Expr.position, answers, env, Env.var, Answers.filled, below, apart, index]
  have logic : slanted.Throughout answers.filled env (Expr.Decided answers.filled env) := by
    simp [slanted, Expr.Decided, IsTruth, answers, env, Env.var, Answers.filled, below, apart]
  have weight : (Expr.param ⟨0⟩ : Expr ℚ).Evaluates answers env := by
    refine Expr.evaluates_iff.mpr ?_
    simp [Expr.Runs, Expr.Sound, answers]
  have element : (Expr.load ⟨0⟩ [.var "x"] : Expr ℚ).Evaluates answers env := by
    refine Expr.evaluates_iff.mpr ?_
    simp [Expr.Runs, Expr.Sound, Expr.position, answers, env, Env.var, index]
  have directed : slanted.Throughout answers.filled env (Expr.Directed answers env direction) := by
    intro e _ r d _ found
    unfold direction at found
    split at found
    · cases found
      exact element
    · cases found
      exact weight
  have value : slanted.value? answers env = some (1 / 2) := by decide +kernel
  have moved : (slanted.tangent direction).value? answers env = some (-3 / 4) := by decide +kernel
  obtain ⟨w, dual, fst, snd, -⟩ := Expr.tangent_dual rational evaluates logic directed
  exact ⟨w, dual, fst, snd, Option.some.inj (fst.symm.trans value), Option.some.inj (snd.symm.trans moved)⟩

end slanted

end ArrayDiff
