import ArrayDiff.Expr.Simplify
import ArrayDiff.Graph.Basic

/-!
# Contributions to an adjoint

A read of a target at some position sends the adjoint of the reader back to that position. Where the position can be
solved for the variables of the reader, the contribution is a pointwise expression in the variables of the target
(`gather?`); otherwise it is an update that runs over the variables of the reader (`scatter?`).
-/

namespace ArrayDiff

variable {κ : Type} [Extended κ]

/-- One step in building up an adjoint. -/
inductive Term (κ : Type) where
  /-- Adds a value everywhere, in terms of the variables of the target. -/
  | gather (value : Expr κ)
  /-- Adds `value` at `lhs`, once for every point of `rdom`. -/
  | scatter (lhs : List (Expr κ)) (value : Expr κ) (rdom : ReductionDomain)
  /-- Sets the adjoint at `lhs` to 0. -/
  | mask (lhs : List (Expr κ)) (rdom : Option ReductionDomain)

/-- The arguments of `f` that the definition writes along. -/
def Func.liveVars (f : Func κ) (d : Definition κ) : List Name :=
  f.args.filter fun x => d.lhs.any (·.varName? = some x)

/-- The range of an argument of `f` in a region. -/
def Func.rangeOf? (f : Func κ) (region : Domain) (x : Name) : Option Interval :=
  (f.dimOf? x).bind fun d => region.intervals[d]?

/-- A pure variable or its negative, plus an offset. -/
structure Affine where
  x : Name
  positive : Bool
  offset : Int
  deriving DecidableEq

/-- Recognizes affine index expressions; the offset has to be an integer constant. -/
def Affine.ofExpr? : Expr κ → Option Affine
  | .var x => some ⟨x, true, 0⟩
  | .unary .neg (.var x) => some ⟨x, false, 0⟩
  | .binary .add (.var x) c => c.integer?.map fun c => ⟨x, true, c⟩
  | .binary .add c (.var x) => c.integer?.map fun c => ⟨x, true, c⟩
  | .binary .sub (.var x) c => c.integer?.map fun c => ⟨x, true, -c⟩
  | .binary .sub c (.var x) => c.integer?.map fun c => ⟨x, false, c⟩
  | _ => none

/-- The value of the variable at which the affine expression equals `t`. -/
def Affine.inverse (a : Affine) (t : Expr κ) : Expr κ :=
  if a.positive then Smart.sub t (.ofInt a.offset) else Smart.sub (.ofInt a.offset) t

/-- Variables of a reader in terms of those of the target, and the conditions under which a position is read. -/
structure Inversion (κ : Type) where
  solved : Table Name (Expr κ) := {}
  guards : List (Expr κ) := []

/-- Solves one index argument for a variable of the reader that has not been solved for yet. -/
def Inversion.solve? (reader : Func κ) (region : Domain) (live : List Name) (inv : Inversion κ) (t : Name)
    (arg : Expr κ) : Option (Inversion κ) :=
  let arg := arg.simplify
  match arg.integer? with
  | some k => some { inv with guards := inv.guards ++ [Smart.compare .eq (.var t) (.ofInt k)] }
  | none => do
    let affine ← Affine.ofExpr? arg
    if affine.x ∉ live ∨ inv.solved.contains affine.x then none
    let range ← reader.rangeOf? region affine.x
    let inverse := affine.inverse (.var t)
    let guards := [Smart.compare .ge inverse (.ofInt range.min), Smart.compare .le inverse (.ofInt range.max)]
    return ⟨inv.solved.insert affine.x inverse, inv.guards ++ guards⟩

/-- The contribution as a pointwise expression, when every variable of the reader can be solved for. -/
def gather? (reader : Func κ) (region : Domain) (d : Definition κ) (targetVars : List Name) (args : List (Expr κ))
    (value : Expr κ) : Option (Expr κ) := do
  if d.rdom.isSome then none
  let live := (reader.liveVars d).eraseDups
  let inv ← (targetVars.zip args).foldlM
    (fun (inv : Inversion κ) (t, arg) => inv.solve? reader region live t arg) {}
  if inv.solved.keys.length ≠ live.length then none
  return Smart.select (Smart.all inv.guards) (value.substitute inv.solved.get?).simplify .zero

/-- The reduction variable that a variable of the reader becomes. -/
def scatterVar (reader : Func κ) (x : Name) : Name := s!"{reader.name}${x}"

/-- The contribution as an update over the variables of the reader, nothing if one of them has no values. -/
def scatter? (reader : Func κ) (region : Domain) (d : Definition κ) (args : List (Expr κ)) (value : Expr κ) :
    Option (Term κ) := do
  let live := reader.liveVars d
  let dims ← live.mapM fun x => (reader.rangeOf? region x).map fun range => (scatterVar reader x, range)
  if dims.any (·.2.isEmpty) then none
  let own : ReductionDomain := ⟨dims⟩
  let rdom := d.rdom.elim own (·.join own)
  let renamed (e : Expr κ) :=
    (e.substitute fun x => if x ∈ live then some (.rvar (scatterVar reader x)) else none).simplify
  return .scatter (args.map renamed) (renamed value) rdom

/-- What a read at `args` in a definition of the reader adds to the adjoint of its target, for the derivative `value` of
the output with respect to that read. -/
def contribution? (reader : Func κ) (region : Domain) (d : Definition κ) (targetVars : List Name)
    (args : List (Expr κ)) (value : Expr κ) : Option (Term κ) :=
  let value := value.simplify
  if value.isZero then none
  else
    match gather? reader region d targetVars args value with
    | some pointwise => some (.gather pointwise)
    | none => scatter? reader region d args value

end ArrayDiff
