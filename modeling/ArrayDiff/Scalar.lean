/-!
# Scalars

The arithmetic in which expressions are folded, bounded and evaluated. `Scalar` has what evaluating a value needs,
`Extended` adds the infinities and roundings that ranges need, `Embed` carries constants into evaluated values.
-/

namespace ArrayDiff

/-- Numbers that pipelines compute with. Comparisons are Boolean, so that a type with an unordered element fits. -/
class Scalar (α : Type) where
  ofInt : Int → α
  neg : α → α
  abs : α → α
  floor : α → α
  sqrt : α → α
  exp : α → α
  log : α → α
  sin : α → α
  cos : α → α
  tanh : α → α
  add : α → α → α
  sub : α → α → α
  mul : α → α → α
  div : α → α → α
  min : α → α → α
  max : α → α → α
  pow : α → α → α
  equal : α → α → Bool
  less : α → α → Bool
  lessEq : α → α → Bool
  /-- The floor as a coordinate; what has no coordinate goes to the smallest one. -/
  index : α → Int

namespace Scalar

variable {α : Type} [Scalar α]

def zero : α := ofInt 0

def one : α := ofInt 1

def minusOne : α := ofInt (-1)

def half : α := div (ofInt 1) (ofInt 2)

def isZero (x : α) : Bool := equal x zero

def isOne (x : α) : Bool := equal x one

/-- Truth values are 1 and 0; every number but 0 counts as true. -/
def ofBool (b : Bool) : α := if b then one else zero

end Scalar

/-- Scalars with the two infinities, as used for the ends of ranges. -/
class Extended (α : Type) extends Scalar α where
  top : α
  bottom : α
  ceil : α → α
  isNaN : α → Bool
  isFinite : α → Bool
  /-- The floor as an integer, kept inside the range of coordinates. -/
  floorInt : α → Int

/-- The value of an integral finite scalar. -/
def Extended.integer? {α : Type} [Extended α] (x : α) : Option Int :=
  if Extended.isFinite x && Scalar.equal (Scalar.floor x) x then some (Extended.floorInt x) else none

/-- Constants of type `κ` used in a computation over `α`. -/
class Embed (κ α : Type) where
  embed : κ → α

end ArrayDiff
