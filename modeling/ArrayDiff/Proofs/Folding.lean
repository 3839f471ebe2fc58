import ArrayDiff.Proofs.Success

/-!
# Folding

Constants are folded with the operators that evaluation uses. So an expression that meets neither variables nor reads
when it is evaluated, nor a division by 0, simplifies to its value, whatever the arithmetic is (`Expr.simplify_folds`).
The right side of a conjunction or a disjunction has to be a truth value where it decides: simplification returns it as
it stands.
-/

namespace ArrayDiff

namespace Smart

variable {κ : Type} [Scalar κ] {a b c t f : Expr κ} {x y : κ}

theorem binary_const {op : BinaryOp} (nonzero : op = .div → Scalar.isZero y = false) :
    binary op (.const x) (.const y) = .const (op.apply x y) := by
  cases op with
  | div =>
    change div (Expr.const x) (Expr.const y) = _
    simp only [div, Expr.const?, nonzero rfl, Bool.false_eq_true, if_false]
    rfl
  | _ => rfl

theorem and_zero (zero : Scalar.isZero x = true) : and (.const x) b = .zero := by
  simp [and, Expr.isZero, zero]

theorem or_true (holds : Scalar.isZero x = false) : or (.const x) b = .one := by
  simp [or, isTrue, Expr.const?, holds]

theorem and_truth (holds : Scalar.isZero x = false) (truth : y = Scalar.ofBool !Scalar.isZero y) :
    and (.const x) (.const y) = .const (Scalar.ofBool !Scalar.isZero y) := by
  cases zero : Scalar.isZero y with
  | true =>
    simp [and, Expr.isZero, zero]
    rfl
  | false =>
    simpa [and, Expr.isZero, isTrue, Expr.const?, holds, zero] using truth

theorem or_truth (fails : Scalar.isZero x = true) (truth : y = Scalar.ofBool !Scalar.isZero y) :
    or (.const x) (.const y) = .const (Scalar.ofBool !Scalar.isZero y) := by
  cases zero : Scalar.isZero y with
  | true =>
    simpa [or, Expr.isZero, isTrue, Expr.const?, fails, zero] using truth
  | false =>
    simp [or, isTrue, Expr.const?, zero]
    rfl

theorem select_const : select (.const x) t f = if Scalar.isZero x then f else t := rfl

end Smart

namespace Expr

variable {κ : Type} [Scalar κ] [Embed κ κ]

/-- What has to hold of an evaluated node for it to be folded like it is evaluated: it is no variable and no read, its
divisor is not 0, and a right side that decides it is a truth value. -/
def Folds (ρ : Valuation κ) (env : Env κ) : Expr κ → Prop
  | binary op _ b => op = .div → Scalar.isZero (b.value ρ env) = false
  | and a b => Scalar.isZero (a.value ρ env) = false → b.value ρ env = Scalar.ofBool !Scalar.isZero (b.value ρ env)
  | or a b => Scalar.isZero (a.value ρ env) = true → b.value ρ env = Scalar.ofBool !Scalar.isZero (b.value ρ env)
  | var _ | rvar _ | param _ | call .. | load .. => False
  | _ => True

variable {ρ : Valuation κ} {env : Env κ} {a b e : Expr κ}

theorem simplify_eq_const (embed : ∀ k : κ, (Embed.embed k : κ) = k) (folds : e.Throughout ρ env (Folds ρ env)) :
    e.simplify = const (e.value ρ env) := by
  induction e with
  | const k => rw [simplify, value_const, embed]
  | var _ | rvar _ | param _ | call _ _ | load _ _ => exact folds.own.elim
  | unary op a ih =>
    rw [simplify, ih (throughout_unary.mp folds).2]
    rfl
  | not a ih =>
    rw [simplify, ih (throughout_not.mp folds).2]
    rfl
  | binary op a b iha ihb =>
    obtain ⟨nonzero, left, right⟩ := throughout_binary.mp folds
    rw [simplify, iha left, ihb right, Smart.binary_const nonzero]
    rfl
  | compare op a b iha ihb =>
    obtain ⟨-, left, right⟩ := throughout_compare.mp folds
    rw [simplify, iha left, ihb right]
    rfl
  | and a b iha ihb =>
    obtain ⟨truth, left, right⟩ := throughout_and.mp folds
    rw [simplify, iha left, value_and]
    cases first : Scalar.isZero (a.value ρ env) with
    | true => exact Smart.and_zero first
    | false =>
      rw [ihb (right first), Smart.and_truth first (truth first)]
      rfl
  | or a b iha ihb =>
    obtain ⟨truth, left, right⟩ := throughout_or.mp folds
    rw [simplify, iha left, value_or]
    cases first : Scalar.isZero (a.value ρ env) with
    | false => exact Smart.or_true first
    | true =>
      rw [ihb (right first), Smart.or_truth first (truth first)]
      rfl
  | select c t f ihc iht ihf =>
    obtain ⟨-, condition, onTrue, onFalse⟩ := throughout_select.mp folds
    rw [simplify, ihc condition, Smart.select_const, value_select]
    cases first : Scalar.isZero (c.value ρ env) with
    | true => exact ihf (onFalse first)
    | false => exact iht (onTrue first)

theorem eval_eq_pure {m : Type → Type} [Monad m] [LawfulMonad m] (reader : Reader m κ)
    (folds : e.Throughout ρ env (Folds ρ env)) : e.eval reader env = pure (e.value ρ env) := by
  induction e with
  | const k => rw [eval, value_const]
  | var _ | rvar _ | param _ | call _ _ | load _ _ => exact folds.own.elim
  | unary op a ih => rw [eval, ih (throughout_unary.mp folds).2, pure_bind, value_unary]
  | not a ih => rw [eval, ih (throughout_not.mp folds).2, pure_bind, value_not]
  | binary op a b iha ihb =>
    obtain ⟨-, left, right⟩ := throughout_binary.mp folds
    rw [eval, iha left, pure_bind, ihb right, pure_bind, value_binary]
  | compare op a b iha ihb =>
    obtain ⟨-, left, right⟩ := throughout_compare.mp folds
    rw [eval, iha left, pure_bind, ihb right, pure_bind, value_compare]
  | and a b iha ihb =>
    obtain ⟨-, left, right⟩ := throughout_and.mp folds
    rw [eval, iha left, pure_bind, value_and]
    split
    · rfl
    · rename_i holds
      rw [ihb (right (Bool.eq_false_iff.mpr holds)), pure_bind]
  | or a b iha ihb =>
    obtain ⟨-, left, right⟩ := throughout_or.mp folds
    rw [eval, iha left, pure_bind, value_or]
    split
    · rename_i fails
      rw [ihb (right fails), pure_bind]
    · rfl
  | select c t f ihc iht ihf =>
    obtain ⟨-, condition, onTrue, onFalse⟩ := throughout_select.mp folds
    rw [eval, ihc condition, pure_bind, value_select]
    split
    · rename_i fails
      exact ihf (onFalse fails)
    · rename_i holds
      exact iht (onTrue (Bool.eq_false_iff.mpr holds))

/-- Folding agrees with evaluation, however reads are answered. -/
theorem simplify_folds (embed : ∀ k : κ, (Embed.embed k : κ) = k) (folds : e.Throughout ρ env (Folds ρ env)) :
    ∃ k, e.simplify = const k ∧
      ∀ {m : Type → Type} [Monad m] [LawfulMonad m] (reader : Reader m κ), e.eval reader env = pure k :=
  ⟨_, simplify_eq_const embed folds, fun reader => eval_eq_pure reader folds⟩

/-- Without truth values as operands they differ: a conjunction is folded to its second operand. -/
example : (and (const 1) (const 3) : Expr ℚ).simplify = const 3 ∧
    (and (const 1) (const 3) : Expr ℚ).value (⟨fun _ _ => 0, fun _ _ => 0, fun _ => 0⟩ : Valuation ℚ) {} = 1 :=
  ⟨rfl, rfl⟩

end Expr

end ArrayDiff
