import ArrayDiff.Scalar

/-!
# Floating-point scalars

Double and single precision. Of a number and a NaN the smaller and the larger are the number; coordinates are those of
a signed 64-bit word, and rounding a double to a single carries constants into single-precision values.
-/

namespace ArrayDiff

/-- The smallest coordinate. -/
def leastCoordinate : Int := -9223372036854775808

namespace Double

def least (a b : Float) : Float :=
  if a.isNaN then b else if b.isNaN then a else if b < a then b else a

def greatest (a b : Float) : Float :=
  if a.isNaN then b else if b.isNaN then a else if a < b then b else a

def index (x : Float) : Int :=
  let y := x.floor
  if -9223372036854775808.0 ≤ y && y < 9223372036854775808.0 then y.toInt64.toInt else leastCoordinate

end Double

instance : Extended Float where
  ofInt := Float.ofInt
  neg := (- ·)
  abs := Float.abs
  floor := Float.floor
  sqrt := Float.sqrt
  exp := Float.exp
  log := Float.log
  sin := Float.sin
  cos := Float.cos
  tanh := Float.tanh
  add := (· + ·)
  sub := (· - ·)
  mul := (· * ·)
  div := (· / ·)
  min := Double.least
  max := Double.greatest
  pow := Float.pow
  equal := (· == ·)
  less a b := a < b
  lessEq a b := a ≤ b
  index := Double.index
  top := 1.0 / 0.0
  bottom := -1.0 / 0.0
  ceil := Float.ceil
  isNaN := Float.isNaN
  isFinite := Float.isFinite
  floorInt x := x.floor.toInt64.toInt

namespace Single

def least (a b : Float32) : Float32 :=
  if a.isNaN then b else if b.isNaN then a else if b < a then b else a

def greatest (a b : Float32) : Float32 :=
  if a.isNaN then b else if b.isNaN then a else if a < b then b else a

def index (x : Float32) : Int :=
  let y := x.floor
  if -9223372036854775808.0 ≤ y && y < 9223372036854775808.0 then y.toInt64.toInt else leastCoordinate

end Single

instance : Scalar Float32 where
  ofInt := Float32.ofInt
  neg := (- ·)
  abs := Float32.abs
  floor := Float32.floor
  sqrt := Float32.sqrt
  exp := Float32.exp
  log := Float32.log
  sin := Float32.sin
  cos := Float32.cos
  tanh := Float32.tanh
  add := (· + ·)
  sub := (· - ·)
  mul := (· * ·)
  div := (· / ·)
  min := Single.least
  max := Single.greatest
  pow := Float32.pow
  equal := (· == ·)
  less a b := a < b
  lessEq a b := a ≤ b
  index := Single.index

instance : Embed Float Float := ⟨id⟩

instance : Embed Float Float32 := ⟨Float.toFloat32⟩

end ArrayDiff
