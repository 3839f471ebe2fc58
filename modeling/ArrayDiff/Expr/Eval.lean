import ArrayDiff.Expr.Basic

/-!
# Evaluation of expressions

The value of an expression in an environment, in any monad that answers its reads. Operands are evaluated from left to
right; logic and selection evaluate only the operands they need.
-/

namespace ArrayDiff

/-- Values of the variables in scope; the first entry of a name counts. -/
structure Env (α : Type) where
  vars : List (Name × α) := []
  rvars : List (Name × α) := []

/-- How the reads of an expression are answered. -/
structure Reader (m : Type → Type) (α : Type) where
  call : FuncId → List Int → m α
  load : BufferId → List Int → m α
  param : ParamId → m α
  /-- What happens when a variable has no value. -/
  unbound : Name → m α

namespace Expr

variable {κ α : Type} {m : Type → Type} [Scalar α] [Embed κ α] [Monad m]

mutual

@[specialize] def eval (reader : Reader m α) (env : Env α) : Expr κ → m α
  | const c => pure (Embed.embed c)
  | var x => (env.vars.lookup x).elim (reader.unbound x) pure
  | rvar x => (env.rvars.lookup x).elim (reader.unbound x) pure
  | param p => reader.param p
  | call f args => do
    let index ← evalIndex reader env args
    reader.call f index
  | load b args => do
    let index ← evalIndex reader env args
    reader.load b index
  | unary op a => do
    let x ← eval reader env a
    pure (op.apply x)
  | binary op a b => do
    let x ← eval reader env a
    let y ← eval reader env b
    pure (op.apply x y)
  | compare op a b => do
    let x ← eval reader env a
    let y ← eval reader env b
    pure (Scalar.ofBool (op.holds x y))
  | and a b => do
    let x ← eval reader env a
    if Scalar.isZero x then pure Scalar.zero
    else
      let y ← eval reader env b
      pure (Scalar.ofBool (!Scalar.isZero y))
  | or a b => do
    let x ← eval reader env a
    if Scalar.isZero x then
      let y ← eval reader env b
      pure (Scalar.ofBool (!Scalar.isZero y))
    else pure Scalar.one
  | not a => do
    let x ← eval reader env a
    pure (Scalar.ofBool (Scalar.isZero x))
  | select c t f => do
    let x ← eval reader env c
    if Scalar.isZero x then eval reader env f else eval reader env t

/-- The position that index arguments address: the floors of their values. -/
@[specialize] def evalIndex (reader : Reader m α) (env : Env α) : List (Expr κ) → m (List Int)
  | [] => pure []
  | e :: es => do
    let x ← eval reader env e
    let rest ← evalIndex reader env es
    pure (Scalar.index x :: rest)

end

end Expr

end ArrayDiff
