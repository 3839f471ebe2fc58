import ArrayDiff.Expr.Simplify

/-!
# Symbolic derivatives

Derivatives of one expression with respect to the reads in it: `Expr.partials` runs backwards through the tree and
`Expr.tangent` forwards. Index arguments count as constants, and so do comparisons and logic.
-/

namespace ArrayDiff

variable {κ : Type} [Scalar κ]

/-- The derivative of the operator at `a`. -/
def UnaryOp.slope : UnaryOp → Expr κ → Expr κ
  | neg, _ => .const Scalar.minusOne
  | exp, a => Smart.unary .exp a
  | log, a => Smart.div .one a
  | sin, a => Smart.unary .cos a
  | cos, a => Smart.neg (Smart.unary .sin a)
  | tanh, a =>
    let t := Smart.unary .tanh a
    Smart.sub .one (Smart.mul t t)
  | sqrt, a => Smart.div (.const Scalar.half) (Smart.unary .sqrt a)
  | abs, a => Smart.select (Smart.compare .ge a .zero) .one (.const Scalar.minusOne)
  | floor, _ => .zero

/-- The derivatives of the operator along its left and its right operand; ties of the smaller and the larger go to the
left one. -/
def BinaryOp.slopes : BinaryOp → Expr κ → Expr κ → Expr κ × Expr κ
  | add, _, _ => (.one, .one)
  | sub, _, _ => (.one, .const Scalar.minusOne)
  | mul, a, b => (b, a)
  | div, a, b => (Smart.div .one b, Smart.div (Smart.neg a) (Smart.mul b b))
  | min, a, b =>
    let c := Smart.compare .le a b
    (Smart.select c .one .zero, Smart.select c .zero .one)
  | max, a, b =>
    let c := Smart.compare .ge a b
    (Smart.select c .one .zero, Smart.select c .zero .one)
  | pow, a, b =>
    (Smart.mul b (Smart.pow a (Smart.sub b .one)), Smart.mul (Smart.pow a b) (Smart.unary .log a))

/-- The derivative of an expression with respect to one of its reads. -/
structure Partial (κ : Type) where
  read : Read κ
  slope : Expr κ

/-- Adds `slope` to the entry of `read`; a read that is met for the first time gets an entry at the end. -/
def Partial.record (read : Read κ) (slope : Expr κ) : List (Partial κ) → List (Partial κ)
  | [] => [⟨read, slope⟩]
  | p :: ps =>
    if p.read.same read then ⟨p.read, Smart.add p.slope slope⟩ :: ps else p :: record read slope ps

namespace Expr

/-- Reverse accumulation: every read in `e` gets its share of `adjoint`. -/
def accumulate (e : Expr κ) (adjoint : Expr κ) (out : List (Partial κ)) : List (Partial κ) :=
  if adjoint.isZero then out else
  match e with
  | const _ | var _ | rvar _ => out
  | param p => Partial.record ⟨.param p, []⟩ adjoint out
  | call f args => Partial.record ⟨.func f, args⟩ adjoint out
  | load b args => Partial.record ⟨.buffer b, args⟩ adjoint out
  | unary op a => a.accumulate (Smart.mul adjoint (op.slope a)) out
  | binary op a b =>
    let (da, db) := op.slopes a b
    b.accumulate (Smart.mul adjoint db) (a.accumulate (Smart.mul adjoint da) out)
  | compare .. | and .. | or .. | not _ => out
  | select c t f =>
    let c := c.simplify
    f.accumulate (Smart.select c .zero adjoint) (t.accumulate (Smart.select c adjoint .zero) out)

/-- The derivatives with respect to all reads, in the order of first occurrence, without those that are 0. -/
def partials (e : Expr κ) : List (Partial κ) :=
  (e.accumulate .one []).filter fun p => !p.slope.isZero

/-- Forward accumulation: the derivative of `e` when every read moves along its direction. A read without direction is
constant. -/
def tangent (direction : Read κ → Option (Expr κ)) : Expr κ → Expr κ
  | const _ | var _ | rvar _ => .zero
  | param p => (direction ⟨.param p, []⟩).getD .zero
  | call f args => (direction ⟨.func f, args⟩).getD .zero
  | load b args => (direction ⟨.buffer b, args⟩).getD .zero
  | unary op a => Smart.mul (op.slope a) (a.tangent direction)
  | binary op a b =>
    let (da, db) := op.slopes a b
    Smart.add (Smart.mul da (a.tangent direction)) (Smart.mul db (b.tangent direction))
  | compare .. | and .. | or .. | not _ => .zero
  | select c t f => Smart.select c.simplify (t.tangent direction) (f.tangent direction)

end Expr

end ArrayDiff
