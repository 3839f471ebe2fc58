import ArrayDiff.Error
import ArrayDiff.Expr.Simplify
import ArrayDiff.Graph.Basic

/-!
# Seeds

How the adjoint of the output is supplied: as a func over explicit bounds, as a buffer over its own domain, or as 1 for
an output of a single element.
-/

namespace ArrayDiff

variable {κ : Type} [Extended κ]

/-- What the adjoint of the output is taken from. -/
inductive Seed (κ : Type) where
  | func (adjoint : FuncId) (bounds : List (Expr κ × Expr κ))
  | buffer (adjoint : BufferId)
  | unit

/-- The domain of the output and its adjoint in terms of the arguments of the output. -/
structure ResolvedSeed (κ : Type) where
  domain : Domain
  value : Expr κ

/-- A rank that has to be met by what is named. -/
def checkRank (name : Name) (expected found : Nat) : Except ShapeError Unit :=
  if found = expected then pure () else throw (.rankMismatch name expected found)

/-- Bounds have to be integer constants after simplification. -/
def constantBounds (func : Name) (bounds : List (Expr κ × Expr κ)) : Except ShapeError Domain := do
  let intervals ← bounds.zipIdx.mapM fun ((min, max), dim) =>
    match min.simplify.integer?, max.simplify.integer? with
    | some min, some max => pure ⟨min, max⟩
    | _, _ => throw (.nonConstantBound func dim)
  return ⟨intervals⟩

/-- The domain of an output with one element. -/
def unitDomain (out : Func κ) : Except ShapeError Domain :=
  if out.dims = 0 then return .scalar
  else
    match out.estimate with
    | none => return ⟨List.replicate out.dims (.point 0)⟩
    | some estimate =>
      if estimate.extents.all (· = 1) then return estimate
      else throw (.notSingleElement out.name estimate.extents)

/-- The domain and the value of a seed, with ranks and bounds checked. -/
def Graph.resolveSeed (g : Graph κ) (output : FuncId) (seed : Seed κ) : Except ShapeError (ResolvedSeed κ) := do
  let out := g.func output
  match seed with
  | .func adjoint bounds =>
    checkRank (g.func adjoint).name out.dims (g.func adjoint).dims
    checkRank out.name out.dims bounds.length
    return ⟨← constantBounds out.name bounds, .call adjoint out.argExprs⟩
  | .buffer adjoint =>
    let buffer := g.buffer adjoint
    checkRank buffer.name out.dims buffer.domain.dims
    return ⟨buffer.domain, .load adjoint out.argExprs⟩
  | .unit => return ⟨← unitDomain out, .one⟩

end ArrayDiff
