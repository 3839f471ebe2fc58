import ArrayDiff.Domain
import ArrayDiff.Expr.Basic

/-!
# Simplification

Smart constructors that fold constants and apply algebraic identities, and `Expr.simplify`, which rebuilds a tree
through them. Contributions that vanish disappear here instead of piling up as products with 0.
-/

namespace ArrayDiff

namespace Smart

variable {κ : Type} [Scalar κ]

/-- The constant for a truth value. -/
def truth (b : Bool) : Expr κ := .const (Scalar.ofBool b)

/-- A minus sign before a minus sign cancels it. -/
def unary (op : UnaryOp) : Expr κ → Expr κ
  | .const c => .const (op.apply c)
  | .unary .neg a => if op = .neg then a else .unary op (.unary .neg a)
  | a => .unary op a

def neg (a : Expr κ) : Expr κ := unary .neg a

def isMinusOne : Expr κ → Bool
  | .const c => Scalar.equal c Scalar.minusOne
  | _ => false

def add (a b : Expr κ) : Expr κ :=
  match a.const?, b.const? with
  | some x, some y => .const (Scalar.add x y)
  | _, _ => if a.isZero then b else if b.isZero then a else .binary .add a b

def sub (a b : Expr κ) : Expr κ :=
  match a.const?, b.const? with
  | some x, some y => .const (Scalar.sub x y)
  | _, _ => if b.isZero then a else if a.isZero then neg b else .binary .sub a b

def mul (a b : Expr κ) : Expr κ :=
  match a.const?, b.const? with
  | some x, some y => .const (Scalar.mul x y)
  | _, _ =>
    if a.isZero || b.isZero then .zero
    else if a.isOne then b
    else if b.isOne then a
    else if isMinusOne a then neg b
    else if isMinusOne b then neg a
    else .binary .mul a b

/-- Quotients that are not folded: 0 divided by anything is 0, and division by 1 drops out. -/
def divOpen (a b : Expr κ) : Expr κ :=
  if a.isZero then .zero else if b.isOne then a else .binary .div a b

/-- Quotients of constants are folded unless the divisor is 0. -/
def div (a b : Expr κ) : Expr κ :=
  match a.const?, b.const? with
  | some x, some y => if Scalar.isZero y then divOpen a b else .const (Scalar.div x y)
  | _, _ => divOpen a b

/-- Powers with exponent 1 or 0 are folded for every base. -/
def pow (a b : Expr κ) : Expr κ :=
  match a.const?, b.const? with
  | some x, some y => .const (Scalar.pow x y)
  | _, _ => if b.isOne then a else if b.isZero then .one else .binary .pow a b

/-- Operators that are folded only when both sides are constants. -/
def foldOnly (op : BinaryOp) (a b : Expr κ) : Expr κ :=
  match a.const?, b.const? with
  | some x, some y => .const (op.apply x y)
  | _, _ => .binary op a b

def binary : BinaryOp → Expr κ → Expr κ → Expr κ
  | .add => add
  | .sub => sub
  | .mul => mul
  | .div => div
  | .pow => pow
  | .min => foldOnly .min
  | .max => foldOnly .max

def compare (op : Comparison) (a b : Expr κ) : Expr κ :=
  match a.const?, b.const? with
  | some x, some y => truth (op.holds x y)
  | _, _ => .compare op a b

/-- Whether `e` is a constant that counts as true. -/
def isTrue (e : Expr κ) : Bool := e.const?.any fun c => !Scalar.isZero c

/-- A side that is false decides a conjunction, a side that is true drops out of it. -/
def and (a b : Expr κ) : Expr κ :=
  if a.isZero || b.isZero then .zero
  else if isTrue a then b
  else if isTrue b then a
  else .and a b

/-- A side that is true decides a disjunction, a side that is false drops out of it. -/
def or (a b : Expr κ) : Expr κ :=
  if isTrue a || isTrue b then .one
  else if a.isZero then b
  else if b.isZero then a
  else .or a b

def not (a : Expr κ) : Expr κ :=
  match a.const? with
  | some x => truth (Scalar.isZero x)
  | none => .not a

/-- A decided condition, or a condition that makes no difference, is dropped. -/
def select (c t f : Expr κ) : Expr κ :=
  match c.const? with
  | some x => if Scalar.isZero x then f else t
  | none => if t.same f then t else .select c t f

/-- The conjunction of all terms. -/
def all (terms : List (Expr κ)) : Expr κ := terms.foldl and .one

/-- The sum of all terms. -/
def sum (terms : List (Expr κ)) : Expr κ := terms.foldl add .zero

end Smart

namespace Expr

variable {κ : Type} [Scalar κ]

mutual

/-- Rebuilds a tree bottom-up through the smart constructors. -/
def simplify : Expr κ → Expr κ
  | const c => const c
  | var x => var x
  | rvar x => rvar x
  | param p => param p
  | call f args => call f (simplifyList args)
  | load b args => load b (simplifyList args)
  | unary op a => Smart.unary op (simplify a)
  | binary op a b => Smart.binary op (simplify a) (simplify b)
  | compare op a b => Smart.compare op (simplify a) (simplify b)
  | and a b => Smart.and (simplify a) (simplify b)
  | or a b => Smart.or (simplify a) (simplify b)
  | not a => Smart.not (simplify a)
  | select c t f => Smart.select (simplify c) (simplify t) (simplify f)

def simplifyList : List (Expr κ) → List (Expr κ)
  | [] => []
  | e :: es => simplify e :: simplifyList es

end

theorem simplifyList_eq_map (es : List (Expr κ)) : simplifyList es = es.map simplify := by
  induction es with
  | nil => rfl
  | cons e es ih => simp [simplifyList, ih]

end Expr

/-- The condition that `args` lie in the domain. -/
def Domain.containsExpr {κ : Type} [Scalar κ] (d : Domain) (args : List (Expr κ)) : Expr κ :=
  Smart.all (d.intervals.zipWith
    (fun i a => Smart.and (Smart.compare .ge a (.ofInt i.min)) (Smart.compare .le a (.ofInt i.max))) args)

end ArrayDiff
