import ArrayDiff.Operator
import ArrayDiff.Target

/-!
# Expressions

The trees that definitions are written in, over constants of a type `κ`. Reads of funcs, buffers and params are
addressed by ids; their index arguments are expressions too. `Expr.nodes` lists a tree in pre-order, and the variables
and reads of an expression are taken from that list.
-/

namespace ArrayDiff

inductive Expr (κ : Type) where
  | const (c : κ)
  | var (x : Name)
  | rvar (x : Name)
  | param (p : ParamId)
  | call (f : FuncId) (args : List (Expr κ))
  | load (b : BufferId) (args : List (Expr κ))
  | unary (op : UnaryOp) (a : Expr κ)
  | binary (op : BinaryOp) (a b : Expr κ)
  | compare (op : Comparison) (a b : Expr κ)
  | and (a b : Expr κ)
  | or (a b : Expr κ)
  | not (a : Expr κ)
  | select (c t f : Expr κ)
  deriving Inhabited

/-- One read of a target with its index arguments. -/
structure Read (κ : Type) where
  target : Target
  args : List (Expr κ)

namespace Expr

variable {κ : Type}

def const? : Expr κ → Option κ
  | const c => some c
  | _ => none

def ofInt [Scalar κ] (k : Int) : Expr κ := const (Scalar.ofInt k)

def zero [Scalar κ] : Expr κ := const Scalar.zero

def one [Scalar κ] : Expr κ := const Scalar.one

/-- The value of an integral constant. -/
def integer? [Extended κ] (e : Expr κ) : Option Int := e.const?.bind Extended.integer?

def isZero [Scalar κ] : Expr κ → Bool
  | const c => Scalar.isZero c
  | _ => false

def isOne [Scalar κ] : Expr κ → Bool
  | const c => Scalar.isOne c
  | _ => false

def clamp (a lo hi : Expr κ) : Expr κ := binary .min (binary .max a lo) hi

mutual

/-- The same tree, with constants compared as numbers. -/
def same [Scalar κ] : Expr κ → Expr κ → Bool
  | const a, const b => Scalar.equal a b
  | var x, var y => x == y
  | rvar x, rvar y => x == y
  | param p, param q => p == q
  | call f as, call g bs => f == g && sameList as bs
  | load b as, load c bs => b == c && sameList as bs
  | unary op a, unary op' a' => op == op' && same a a'
  | binary op a b, binary op' a' b' => op == op' && same a a' && same b b'
  | compare op a b, compare op' a' b' => op == op' && same a a' && same b b'
  | and a b, and a' b' => same a a' && same b b'
  | or a b, or a' b' => same a a' && same b b'
  | not a, not a' => same a a'
  | select c t f, select c' t' f' => same c c' && same t t' && same f f'
  | _, _ => false

def sameList [Scalar κ] : List (Expr κ) → List (Expr κ) → Bool
  | [], [] => true
  | a :: as, b :: bs => same a b && sameList as bs
  | _, _ => false

end

/-- Direct subexpressions in evaluation order. -/
def children : Expr κ → List (Expr κ)
  | const _ | var _ | rvar _ | param _ => []
  | call _ args | load _ args => args
  | unary _ a | not a => [a]
  | binary _ a b | compare _ a b | and a b | or a b => [a, b]
  | select c t f => [c, t, f]

mutual

/-- All subexpressions, each before its own subexpressions. -/
def nodes : Expr κ → List (Expr κ)
  | const c => [const c]
  | var x => [var x]
  | rvar x => [rvar x]
  | param p => [param p]
  | call f args => call f args :: nodesList args
  | load b args => load b args :: nodesList args
  | unary op a => unary op a :: nodes a
  | binary op a b => binary op a b :: (nodes a ++ nodes b)
  | compare op a b => compare op a b :: (nodes a ++ nodes b)
  | and a b => and a b :: (nodes a ++ nodes b)
  | or a b => or a b :: (nodes a ++ nodes b)
  | not a => not a :: nodes a
  | select c t f => select c t f :: (nodes c ++ nodes t ++ nodes f)

def nodesList : List (Expr κ) → List (Expr κ)
  | [] => []
  | e :: es => nodes e ++ nodesList es

end

theorem nodesList_eq_flatMap (es : List (Expr κ)) : nodesList es = es.flatMap nodes := by
  induction es with
  | nil => rfl
  | cons e es ih => simp [nodesList, ih]

/-- The read that an expression is itself. -/
def read? : Expr κ → Option (Read κ)
  | call f args => some ⟨.func f, args⟩
  | load b args => some ⟨.buffer b, args⟩
  | param p => some ⟨.param p, []⟩
  | _ => none

/-- All reads, those in index arguments included. -/
def reads (e : Expr κ) : List (Read κ) := e.nodes.filterMap read?

def readsTarget (e : Expr κ) (t : Target) : Bool := e.reads.any (·.target = t)

/-- The name of an expression that is a pure variable. -/
def varName? : Expr κ → Option Name
  | var x => some x
  | _ => none

def isRVar : Expr κ → Bool
  | rvar _ => true
  | _ => false

/-- The names of the pure variables, ascending and each once. -/
def freeVars (e : Expr κ) : List Name := (e.nodes.filterMap varName?).eraseDups.mergeSort

def usesVar (e : Expr κ) (x : Name) : Bool := e.nodes.any (·.varName? = some x)

def usesRVars (e : Expr κ) : Bool := e.nodes.any isRVar

end Expr

namespace Read

variable {κ : Type}

def toExpr (r : Read κ) : Expr κ :=
  match r.target with
  | .func f => .call f r.args
  | .buffer b => .load b r.args
  | .param p => .param p

def same [Scalar κ] (r s : Read κ) : Bool := r.target = s.target && Expr.sameList r.args s.args

end Read

end ArrayDiff
