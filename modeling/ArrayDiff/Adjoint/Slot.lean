import ArrayDiff.Adjoint.Term
import ArrayDiff.Graph.Extension

/-!
# Adjoint funcs

The list of terms of one adjoint turned into funcs. Terms that are added everywhere make up an initial definition; every
other term becomes an update of an accumulator. The bounded func is 0 outside the region of its target.
-/

namespace ArrayDiff

variable {κ : Type} [Extended κ]

structure Slot where
  bounded : FuncId
  /-- The raw accumulation, when it needs updates. -/
  unbounded : Option FuncId
  deriving DecidableEq

/-- What an adjoint is taken of: a key with its name, arguments and region. -/
structure Site where
  key : Key
  name : Name
  args : List Name
  region : Domain

/-- The value that a term adds everywhere, if it is such a term. -/
def Term.gather? : Term κ → Option (Expr κ)
  | gather value => some value
  | _ => none

/-- The sum of the leading terms that are added everywhere. -/
def leadingSum (terms : List (Term κ)) : Expr κ :=
  (terms.takeWhile (·.gather?.isSome)).foldl (fun sum t => t.gather?.elim sum (Smart.add sum)) .zero

/-- The terms from the first one on that is not added everywhere. -/
def laterTerms (terms : List (Term κ)) : List (Term κ) := terms.dropWhile (·.gather?.isSome)

/-- The term as an update of the accumulator `acc`. -/
def Term.toUpdate (acc : FuncId) (args : List (Expr κ)) : Term κ → Definition κ
  | gather value => ⟨args, Smart.add (.call acc args) value, none⟩
  | scatter lhs value rdom => ⟨lhs, Smart.add (.call acc lhs) value, some rdom⟩
  | mask lhs rdom => ⟨lhs, .zero, rdom⟩

namespace Site

def argExprs (s : Site) : List (Expr κ) := s.args.map .var

/-- The func under the id `acc` that starts from `init` and runs the terms as updates. -/
def accumulator (s : Site) (acc : FuncId) (init : Expr κ) (terms : List (Term κ)) : Func κ :=
  { (Func.withInit { name := s.name ++ "_acc", args := s.args } init) with
    origin := .adjoint s.key.target s.key.stage false
    updates := terms.map (Term.toUpdate acc s.argExprs) }

/-- The func that is `body` inside the region and 0 outside. -/
def bounded (s : Site) (body : Expr κ) : Func κ :=
  let value := if body.isZero then body else Smart.select (s.region.containsExpr s.argExprs) body .zero
  Func.withInit { name := s.name, args := s.args, origin := .adjoint s.key.target s.key.stage true } value

def materialize (s : Site) (x : Extension κ) (terms : List (Term κ)) : Slot × Extension κ :=
  let init := leadingSum terms
  match laterTerms terms with
  | [] =>
    let (bounded, x) := x.push (s.bounded init)
    (⟨bounded, none⟩, x)
  | later =>
    let (acc, x) := x.push (s.accumulator x.nextId init later)
    let (bounded, x) := x.push (s.bounded (.call acc s.argExprs))
    (⟨bounded, some acc⟩, x)

end Site

end ArrayDiff
