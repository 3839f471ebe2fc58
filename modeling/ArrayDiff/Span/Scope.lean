import ArrayDiff.Graph.Basic
import ArrayDiff.Span.Basic

/-!
# Scopes

Ranges of the variables of an expression. A scope is narrowed by conditions that compare a variable with a constant,
and is unreachable when a variable has no value left.
-/

namespace ArrayDiff

open Scalar Extended

variable {κ : Type} [Extended κ]

/-- The ranges of pure and of reduction variables. -/
structure Scope (κ : Type) where
  vars : Table Name (Span κ) := {}
  rvars : Table Name (Span κ) := {}

namespace Scope

def bindVar (s : Scope κ) (x : Name) (i : Interval) : Scope κ := { s with vars := s.vars.insert x (.ofInterval i) }

def bindRVar (s : Scope κ) (x : Name) (i : Interval) : Scope κ := { s with rvars := s.rvars.insert x (.ofInterval i) }

def bindReduction (s : Scope κ) (r : ReductionDomain) : Scope κ := r.dims.foldl (fun s (x, i) => s.bindRVar x i) s

/-- The scope of a definition of `f` that is evaluated over `region`. -/
def ofDefinition (f : Func κ) (d : Definition κ) (region : Domain) : Scope κ :=
  let pure := (f.args.zip region.intervals).foldl (fun s (x, i) => s.bindVar x i) ({} : Scope κ)
  d.rdom.elim pure pure.bindReduction

/-- No variable has an empty range. -/
def isReachable (s : Scope κ) : Bool := !(s.vars.values ++ s.rvars.values).any Span.isEmpty

/-- A range restricted to the integers that compare with `c` as `op` says. -/
def restrictSpan (op : Comparison) (c : κ) (s : Span κ) : Span κ :=
  match op with
  | .lt => { s with hi := Scalar.min s.hi (sub (ceil c) one) }
  | .le => { s with hi := Scalar.min s.hi (floor c) }
  | .gt => { s with lo := Scalar.max s.lo (add (floor c) one) }
  | .ge => { s with lo := Scalar.max s.lo (ceil c) }
  | .eq => ⟨Scalar.max s.lo (ceil c), Scalar.min s.hi (floor c)⟩
  | .ne => s

/-- Restricts a variable; a condition on anything else is ignored. -/
def restrictVar (s : Scope κ) (op : Comparison) (c : κ) : Expr κ → Scope κ
  | .var x => { s with vars := s.vars.modify x (restrictSpan op c) }
  | .rvar x => { s with rvars := s.rvars.modify x (restrictSpan op c) }
  | _ => s

/-- The part of a scope where `op` holds between `a` and `b`, as far as one side is a variable and the other one a
constant. -/
def compare (s : Scope κ) (op : Comparison) (a b : Expr κ) : Scope κ :=
  match a, b with
  | a, .const c => s.restrictVar op c a
  | .const c, b => s.restrictVar op.flip c b
  | _, _ => s

/-- The part of a scope where a condition holds, or where it fails. -/
def narrow (s : Scope κ) : Expr κ → Bool → Scope κ
  | .and a b, true => (s.narrow a true).narrow b true
  | .or a b, false => (s.narrow a false).narrow b false
  | .not a, holds => s.narrow a (!holds)
  | .compare op a b, true => s.compare op a b
  | .compare op a b, false => op.negate?.elim s fun op => s.compare op a b
  | _, _ => s

end Scope

namespace Expr

/-- A range that the values of an expression lie in; data can be anything. -/
def span (scope : Scope κ) : Expr κ → Span κ
  | const c => .point c
  | var x => (scope.vars.get? x).getD .unbounded
  | rvar x => (scope.rvars.get? x).getD .unbounded
  | param _ | call .. | load .. => .unbounded
  | unary op a =>
    let s := a.span scope
    if s.isEmpty then s else s.unary op
  | binary op a b =>
    let s := a.span scope
    let t := b.span scope
    if s.isEmpty || t.isEmpty then .empty else s.binary op t
  | compare .. | and .. | or .. | not _ => ⟨Scalar.zero, Scalar.one⟩
  | select c t f =>
    let onTrue := scope.narrow c true
    let onFalse := scope.narrow c false
    let s := if onTrue.isReachable then t.span onTrue else .empty
    s.union (if onFalse.isReachable then f.span onFalse else .empty)

end Expr

/-- A read with the ranges of its index arguments. -/
structure Access (κ : Type) where
  read : Read κ
  spans : List (Span κ)

namespace Expr

mutual

/-- All reads with the ranges of their arguments, except those in branches that cannot be taken. -/
def accesses (scope : Scope κ) : Expr κ → List (Access κ)
  | const _ | var _ | rvar _ => []
  | param p => [⟨⟨.param p, []⟩, []⟩]
  | call f args => ⟨⟨.func f, args⟩, args.map (·.span scope)⟩ :: accessesList scope args
  | load b args => ⟨⟨.buffer b, args⟩, args.map (·.span scope)⟩ :: accessesList scope args
  | unary _ a | not a => accesses scope a
  | binary _ a b | compare _ a b | and a b | or a b => accesses scope a ++ accesses scope b
  | select c t f =>
    let onTrue := scope.narrow c true
    let onFalse := scope.narrow c false
    accesses scope c ++
      ((if onTrue.isReachable then accesses onTrue t else []) ++
        if onFalse.isReachable then accesses onFalse f else [])

def accessesList (scope : Scope κ) : List (Expr κ) → List (Access κ)
  | [] => []
  | e :: es => accesses scope e ++ accessesList scope es

end

theorem accessesList_eq_flatMap (scope : Scope κ) (es : List (Expr κ)) :
    accessesList scope es = es.flatMap (accesses scope) := by
  induction es with
  | nil => rfl
  | cons e es ih => simp [accessesList, ih]

end Expr

end ArrayDiff
