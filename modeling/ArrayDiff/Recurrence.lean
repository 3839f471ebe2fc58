import ArrayDiff.Error
import ArrayDiff.Expr.Simplify
import ArrayDiff.Graph.Basic

/-!
# Recurrences

How an update uses the previous values of its own func. Positions are compared through their coordinates, each an
integer, a pure variable, or a reduction variable with a sign and an offset.
-/

namespace ArrayDiff

variable {κ : Type} [Extended κ]

/-- The kinds of updates that can be differentiated. -/
inductive UpdateKind (κ : Type) where
  /-- Self-reads see values from before the update: written positions lose their old value. -/
  | overwrite
  /-- Accumulation into positions that may be written many times; every self-read is at the written position. -/
  | inPlace
  /-- Every position is written once, and one self-read sees a position that an earlier iteration wrote. -/
  | scan (read : List (Expr κ)) (accumulates : Bool)

/-- One coordinate of a written or read position. -/
inductive Coord where
  | fixed (k : Int)
  | pure (x : Name)
  /-- The variable, or its negative, plus an offset. -/
  | reduction (x : Name) (positive : Bool) (offset : Int)
  deriving DecidableEq

namespace Coord

/-- A coordinate along a reduction variable. -/
def along? (e : Expr κ) (positive : Bool) (offset : Int) : Option Coord :=
  match e with
  | .rvar x => some (reduction x positive offset)
  | _ => none

/-- The coordinate that a simplified expression stands for. -/
def ofSimplified? (e : Expr κ) : Option Coord :=
  match e.integer? with
  | some k => some (fixed k)
  | none =>
    match e with
    | .var x => some (pure x)
    | .rvar x => some (reduction x true 0)
    | .unary .neg a => along? a false 0
    | .binary .add a b =>
      match a.integer?, b.integer? with
      | none, some c => along? a true c
      | some c, none => along? b true c
      | _, _ => none
    | .binary .sub a b =>
      match a.integer?, b.integer? with
      | none, some c => along? a true (-c)
      | some c, none => along? b false c
      | _, _ => none
    | _ => none

/-- The coordinate that an expression stands for after simplification. -/
def ofExpr? (e : Expr κ) : Option Coord := ofSimplified? e.simplify

def pure? : Coord → Option Name
  | pure x => some x
  | _ => none

def reduction? : Coord → Option Name
  | reduction x _ _ => some x
  | _ => none

end Coord

/-- The coordinates of the written position if no position is written twice: pure variables are distinct, reduction
variables are distinct, and every reduction dimension of more than one point is among them. -/
def Definition.distinctPositions? (d : Definition κ) : Option (List Coord) := do
  let coords ← d.lhs.mapM Coord.ofExpr?
  let reductions := coords.filterMap Coord.reduction?
  let covered := (d.rdom.elim [] (·.dims)).all fun (x, range) => range.size ≤ 1 || x ∈ reductions
  if (coords.filterMap Coord.pure?).Nodup ∧ reductions.Nodup ∧ covered then some coords else none

def Definition.writesOnce (d : Definition κ) : Bool := d.distinctPositions?.isSome

/-- Which value a self-read sees. -/
inductive Seen where
  /-- The value from before the update: the position is the written one, is written later, or is never written. -/
  | before
  /-- A value that an earlier iteration wrote. -/
  | earlier
  deriving DecidableEq

/-- How a coordinate that is read lies to the one that is written. -/
inductive Relation where
  | same
  | never
  /-- The iteration that writes the read coordinate comes `delta` steps of the variable after the reading one. -/
  | shifted (x : Name) (delta : Int)
  deriving DecidableEq

/-- Compares a written coordinate with one that is read, as far as they are of one kind. -/
def Coord.relation? : Coord → Coord → Option Relation
  | fixed k, fixed j => some (if k = j then .same else .never)
  | pure x, pure y => if x = y then some .same else none
  | reduction x positive offset, reduction y sign o =>
    if x = y ∧ positive = sign then some (.shifted x (if positive then o - offset else offset - o)) else none
  | _, _ => none

/-- The steps along a variable, for a relation along it. -/
def Relation.delta? (x : Name) : Relation → Option Int
  | shifted y delta => if y = x then some delta else none
  | _ => none

/-- How many steps of a variable the writing iteration comes after the reading one. -/
def delta (relations : List Relation) (x : Name) : Int := (relations.findSome? (·.delta? x)).getD 0

/-- What a read at `args` sees while `written` is written; iterations are compared with the last reduction variable
first, since it is the outermost one. -/
def seen? (written : List Coord) (rdom : ReductionDomain) (args : List (Expr κ)) : Option Seen := do
  let relations ← (written.zip args).mapM fun (w, a) => (Coord.ofExpr? a).bind w.relation?
  if .never ∈ relations then return .before
  match (rdom.names.reverse.map (delta relations)).find? (· ≠ 0) with
  | some d => return if d < 0 then .earlier else .before
  | none => return .before

/-- The distinct argument lists of the self-reads in a value. -/
def selfReads (f : FuncId) (value : Expr κ) : List (List (Expr κ)) :=
  (value.reads.filter (·.target = .func f)).foldl
    (fun found r => if found.any (Expr.sameList · r.args) then found else found ++ [r.args]) []

/-- The kind of an update over a reduction domain that reads its own func at `reads`. -/
def classifyReads (d : Definition κ) (rdom : ReductionDomain) (reads : List (List (Expr κ))) :
    Except Obstacle (UpdateKind κ) :=
  match d.distinctPositions? with
  | none =>
    if reads.all (Expr.sameList · d.lhs) then return .inPlace else throw .repeatedPositionRead
  | some written => do
    let earlier ← reads.filterM fun args =>
      match seen? written rdom args with
      | some seen => pure (seen = .earlier)
      | none => throw .unorderedSelfRead
    match earlier with
    | [] => return .overwrite
    | [read] =>
      if reads.any fun args => !Expr.sameList args read && !Expr.sameList args d.lhs then
        throw .scanReadsLaterPositions
      return .scan read (reads.any (Expr.sameList · d.lhs))
    | _ => throw .severalEarlierReads

/-- The kind of an update of `f`, or why it has none. -/
def Definition.kindFor (d : Definition κ) (f : FuncId) : Except Obstacle (UpdateKind κ) := do
  let self := Target.func f
  if d.lhs.any (·.readsTarget self) then throw .positionReadsSelf
  if d.value.reads.any fun r => r.target = self && r.args.any (·.readsTarget self) then
    throw .selfReadIndexedBySelf
  match d.rdom, selfReads f d.value with
  | none, _ | _, [] => return .overwrite
  | some rdom, reads => classifyReads d rdom reads

def Graph.classify (g : Graph κ) (f : FuncId) (stage : Stage) (d : Definition κ) :
    Except DiffError (UpdateKind κ) :=
  (d.kindFor f).mapError fun obstacle => .unsupported (g.func f).name stage obstacle

end ArrayDiff
