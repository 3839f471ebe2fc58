import ArrayDiff.Target

/-!
# Errors

What can go wrong when a graph is ordered, bounded, differentiated or evaluated, and the text shown for it.
-/

namespace ArrayDiff

/-- Problems found while ordering a graph. -/
inductive GraphError where
  | cycle (path : List Name)
  | selfReference (func : Name)
  | undefined (func : Name)
  deriving DecidableEq

/-- Domain problems found while a seed is resolved or regions are inferred. -/
inductive ShapeError where
  | notSingleElement (func : Name) (extents : List Int)
  | rankMismatch (name : Name) (expected found : Nat)
  | nonConstantBound (func : Name) (dim : Nat)
  | unboundedAccess (consumer target : Name) (dim : Nat)
  deriving DecidableEq

/-- What was asked for by name or key and is not there. -/
inductive LookupError where
  | missing (target : Name) (stage : Stage) (bounded : Bool)
  | unknownName (name : Name)
  deriving DecidableEq

/-- Why an update has no supported derivative. -/
inductive Obstacle where
  | positionReadsSelf
  | selfReadIndexedBySelf
  | repeatedPositionRead
  | unorderedSelfRead
  | scanReadsLaterPositions
  | severalEarlierReads
  | overwrittenRepeatedly
  | notAdditive
  | accumulatedValueReadsSelf
  | scanWithoutReduction
  | scanNotInPlace
  deriving DecidableEq

/-- Problems of differentiation. -/
inductive DiffError where
  | graph (e : GraphError)
  | shape (e : ShapeError)
  | lookup (e : LookupError)
  | unsupported (func : Name) (stage : Stage) (obstacle : Obstacle)
  /-- A contribution to a func came after its stages were processed. -/
  | outOfOrder (func : Name) (stage : Stage)
  deriving DecidableEq

/-- Problems of evaluation. -/
inductive EvalError where
  | graph (e : GraphError)
  | shape (e : ShapeError)
  | missingBuffer (name : Name)
  | missingParam (name : Name)
  | shapeMismatch (name : Name) (expected found : List Nat)
  | outOfBounds (name : Name) (index : List Int)
  | unboundVariable (name : Name)
  deriving DecidableEq

/-- A list in square brackets. -/
def bracketed {α : Type} [ToString α] (xs : List α) : String := "[" ++ ", ".intercalate (xs.map toString) ++ "]"

def GraphError.message : GraphError → String
  | cycle path => "dependency cycle: " ++ " -> ".intercalate path
  | selfReference func => s!"func \x60{func}\x60 reads itself in its initial definition"
  | undefined func => s!"func \x60{func}\x60 is used but never defined"

def ShapeError.message : ShapeError → String
  | notSingleElement func extents => s!"\x60{func}\x60 is not single-element (extents {bracketed extents})"
  | rankMismatch name expected found => s!"\x60{name}\x60 has {found} dimensions, expected {expected}"
  | nonConstantBound func dim => s!"bound of dimension {dim} of \x60{func}\x60 is not an integer constant"
  | unboundedAccess consumer target dim =>
    s!"\x60{consumer}\x60 reads \x60{target}\x60 at an unbounded index in dimension {dim}"

def LookupError.message : LookupError → String
  | missing target stage bounded =>
    let kind := if bounded then "bounded" else "unbounded"
    s!"no {kind} adjoint of \x60{target}\x60 at {stage.text}"
  | unknownName name => s!"no func, buffer or param named \x60{name}\x60"

def Obstacle.message : Obstacle → String
  | positionReadsSelf => "the written position depends on the func itself"
  | selfReadIndexedBySelf => "a self-read is indexed by the func itself"
  | repeatedPositionRead => "a position written more than once is read elsewhere"
  | unorderedSelfRead => "a self-read cannot be ordered against the written positions"
  | scanReadsLaterPositions => "a scan also reads positions written later"
  | severalEarlierReads => "more than one earlier position is read"
  | overwrittenRepeatedly => "a position is overwritten more than once"
  | notAdditive => "the reduction is not additive"
  | accumulatedValueReadsSelf => "the accumulated value depends on the func itself"
  | scanWithoutReduction => "a scan needs a reduction domain"
  | scanNotInPlace => "the scan does not accumulate in place"

def DiffError.message : DiffError → String
  | graph e => e.message
  | shape e => e.message
  | lookup e => e.message
  | unsupported func stage obstacle => s!"cannot differentiate {stage.text} of \x60{func}\x60: {obstacle.message}"
  | outOfOrder func stage => s!"adjoint contribution to {stage.text} of \x60{func}\x60 arrived out of order"

def EvalError.message : EvalError → String
  | graph e => e.message
  | shape e => e.message
  | missingBuffer name => s!"no data bound to buffer \x60{name}\x60"
  | missingParam name => s!"no value bound to param \x60{name}\x60"
  | shapeMismatch name expected found =>
    s!"data for \x60{name}\x60 has shape {bracketed found}, expected {bracketed expected}"
  | outOfBounds name index => s!"\x60{name}\x60 read out of bounds at {bracketed index}"
  | unboundVariable name => s!"variable \x60{name}\x60 is not bound"

end ArrayDiff
