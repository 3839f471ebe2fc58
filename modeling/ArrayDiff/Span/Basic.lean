import ArrayDiff.Domain
import ArrayDiff.Operator

/-!
# Spans

Ranges of real values with possibly infinite ends, and what the operators do to them.
-/

namespace ArrayDiff

/-- The values from `lo` to `hi`, none when `lo` is greater than `hi`. -/
structure Span (κ : Type) where
  lo : κ
  hi : κ

namespace Span

open Scalar Extended

variable {κ : Type} [Extended κ]

def point (v : κ) : Span κ := ⟨v, v⟩

def unbounded : Span κ := ⟨bottom, top⟩

def empty : Span κ := ⟨top, bottom⟩

def isEmpty (s : Span κ) : Bool := less s.hi s.lo

def isFinite (s : Span κ) : Bool := Extended.isFinite s.lo && Extended.isFinite s.hi

def union (s t : Span κ) : Span κ :=
  if s.isEmpty then t else if t.isEmpty then s else ⟨Scalar.min s.lo t.lo, Scalar.max s.hi t.hi⟩

/-- The integers of an interval as a range. -/
def ofInterval (i : Interval) : Span κ := if i.isEmpty then empty else ⟨ofInt i.min, ofInt i.max⟩

/-- The coordinates that indices in this range have; an infinite range has no such interval. -/
def toInterval? (s : Span κ) : Option Interval :=
  if s.isEmpty then some .empty
  else if s.isFinite then some ⟨floorInt s.lo, floorInt s.hi⟩
  else none

/-- The image under an increasing function. -/
def monotone (f : κ → κ) (s : Span κ) : Span κ := ⟨f s.lo, f s.hi⟩

def negate (s : Span κ) : Span κ := ⟨neg s.hi, neg s.lo⟩

/-- The span of four corner values, unbounded when one of them is undefined. -/
def ofCorners (a b c d : κ) : Span κ :=
  let corners := [a, b, c, d]
  if corners.any isNaN then unbounded
  else ⟨corners.foldl Scalar.min top, corners.foldl Scalar.max bottom⟩

/-- What a function of one operand makes of a nonempty range. -/
def unary (op : UnaryOp) (s : Span κ) : Span κ :=
  match op with
  | .neg => s.negate
  | .exp => s.monotone Scalar.exp
  | .tanh => s.monotone Scalar.tanh
  | .floor => s.monotone Scalar.floor
  | .log => if less zero s.lo then s.monotone Scalar.log else ⟨bottom, Scalar.log s.hi⟩
  | .sqrt => ⟨Scalar.sqrt (Scalar.max s.lo zero), Scalar.sqrt (Scalar.max s.hi zero)⟩
  | .sin | .cos => ⟨minusOne, one⟩
  | .abs =>
    if lessEq zero s.lo then s
    else if lessEq s.hi zero then s.negate
    else ⟨zero, Scalar.max s.hi (neg s.lo)⟩

/-- What a function of two operands makes of two nonempty ranges. -/
def binary (op : BinaryOp) (s t : Span κ) : Span κ :=
  match op with
  | .add => ⟨add s.lo t.lo, add s.hi t.hi⟩
  | .sub => ⟨sub s.lo t.hi, sub s.hi t.lo⟩
  | .mul => ofCorners (mul s.lo t.lo) (mul s.lo t.hi) (mul s.hi t.lo) (mul s.hi t.hi)
  | .div =>
    if less zero t.lo || less t.hi zero then
      ofCorners (div s.lo t.lo) (div s.lo t.hi) (div s.hi t.lo) (div s.hi t.hi)
    else unbounded
  | .min => ⟨Scalar.min s.lo t.lo, Scalar.min s.hi t.hi⟩
  | .max => ⟨Scalar.max s.lo t.lo, Scalar.max s.hi t.hi⟩
  | .pow => if equal s.lo s.hi && equal t.lo t.hi then point (Scalar.pow s.lo t.lo) else unbounded

end Span

end ArrayDiff
