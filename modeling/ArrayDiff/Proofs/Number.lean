import Mathlib.Algebra.Order.Field.Basic
import Mathlib.Algebra.Order.Floor.Ring
import Mathlib.Data.Rat.Floor
import ArrayDiff.Operator

/-!
# Exact numbers

Values without rounding: the elements of an ordered field with floors, in which the functions that are not arithmetic
are fixed. `Exact` adds the infinities that the ends of ranges need; constants of exact pipelines are its numbers.
-/

namespace ArrayDiff

/-- The functions that are not arithmetic, with what the analysis of ranges and the folding of powers rely on. -/
class Transcendental (K : Type) [Field K] [LinearOrder K] where
  sqrt : K → K
  exp : K → K
  log : K → K
  sin : K → K
  cos : K → K
  tanh : K → K
  pow : K → K → K
  sqrt_mono {x y : K} : 0 ≤ x → x ≤ y → sqrt x ≤ sqrt y
  exp_nonneg (x : K) : 0 ≤ exp x
  exp_mono {x y : K} : x ≤ y → exp x ≤ exp y
  log_mono {x y : K} : 0 < x → x ≤ y → log x ≤ log y
  sin_mem (x : K) : -1 ≤ sin x ∧ sin x ≤ 1
  cos_mem (x : K) : -1 ≤ cos x ∧ cos x ≤ 1
  tanh_mem (x : K) : -1 ≤ tanh x ∧ tanh x ≤ 1
  tanh_mono {x y : K} : x ≤ y → tanh x ≤ tanh y
  pow_zero (x : K) : pow x 0 = 1
  pow_one (x : K) : pow x 1 = x

/-- The rational numbers, with stand-ins for the functions that leave them. -/
instance : Transcendental ℚ where
  sqrt x := x
  exp _ := 1
  log _ := 0
  sin _ := 0
  cos _ := 1
  tanh _ := 0
  pow x y := if y = 1 then x else 1
  sqrt_mono _ h := h
  exp_nonneg _ := zero_le_one
  exp_mono _ := le_refl _
  log_mono _ _ := le_refl _
  sin_mem _ := by norm_num
  cos_mem _ := by norm_num
  tanh_mem _ := by norm_num
  tanh_mono _ := le_refl _
  pow_zero _ := if_neg zero_ne_one
  pow_one _ := if_pos rfl

section Values

variable {K : Type} [Field K] [LinearOrder K] [FloorRing K] [Transcendental K]

instance exactScalar : Scalar K where
  ofInt i := i
  neg x := -x
  abs x := if 0 ≤ x then x else -x
  floor x := (⌊x⌋ : ℤ)
  sqrt := Transcendental.sqrt
  exp := Transcendental.exp
  log := Transcendental.log
  sin := Transcendental.sin
  cos := Transcendental.cos
  tanh := Transcendental.tanh
  add x y := x + y
  sub x y := x - y
  mul x y := x * y
  div x y := x / y
  min x y := if x ≤ y then x else y
  max x y := if y ≤ x then x else y
  pow := Transcendental.pow
  equal x y := x = y
  less x y := x < y
  lessEq x y := x ≤ y
  index x := ⌊x⌋

end Values

/-- A number, or what a computation with the ends of ranges can give besides numbers. -/
inductive Exact (K : Type) where
  | number (x : K)
  | top
  | bottom
  | undefined
  deriving DecidableEq

namespace Exact

/-- Applies a function to a number; the infinities go to the given limits. -/
def map {K : Type} (f : K → K) (atBottom atTop : Exact K) : Exact K → Exact K
  | number x => number (f x)
  | top => atTop
  | bottom => atBottom
  | undefined => undefined

variable {K : Type} [Field K] [LinearOrder K]

/-- The infinity with the sign of `x`. -/
def infinite (x : K) : Exact K := if 0 < x then top else if x < 0 then bottom else undefined

protected def neg : Exact K → Exact K := map (- ·) top bottom

protected def add : Exact K → Exact K → Exact K
  | number x, number y => number (x + y)
  | undefined, _ | _, undefined | top, bottom | bottom, top => undefined
  | top, _ | _, top => top
  | bottom, _ | _, bottom => bottom

protected def mul : Exact K → Exact K → Exact K
  | number x, number y => number (x * y)
  | undefined, _ | _, undefined => undefined
  | top, number x | number x, top => infinite x
  | bottom, number x | number x, bottom => infinite (-x)
  | top, top | bottom, bottom => top
  | top, bottom | bottom, top => bottom

protected def div : Exact K → Exact K → Exact K
  | number x, number y => number (x / y)
  | number _, top | number _, bottom => number 0
  | top, number y => infinite y
  | bottom, number y => infinite (-y)
  | _, _ => undefined

protected def less : Exact K → Exact K → Bool
  | number x, number y => x < y
  | bottom, number _ | bottom, top | number _, top => true
  | _, _ => false

protected def equal : Exact K → Exact K → Bool
  | number x, number y => x = y
  | top, top | bottom, bottom => true
  | _, _ => false

protected def lessEq (a b : Exact K) : Bool := a.less b || a.equal b

def isUndefined : Exact K → Bool
  | undefined => true
  | _ => false

protected def min (a b : Exact K) : Exact K :=
  if a.isUndefined then b else if b.isUndefined then a else if a.lessEq b then a else b

protected def max (a b : Exact K) : Exact K :=
  if a.isUndefined then b else if b.isUndefined then a else if b.lessEq a then a else b

def isNumber : Exact K → Bool
  | number _ => true
  | _ => false

variable [FloorRing K] [Transcendental K]

/-- An infinity to the power of a number, given what positive powers of it are. -/
def infinitePow (positive : Exact K) (y : K) : Exact K :=
  if 0 < y then positive else if y < 0 then number 0 else number 1

/-- A number to the power of an infinity, given what the powers of small and of large numbers tend to. -/
def powInfinite (small large : Exact K) (x : K) : Exact K :=
  if x = 1 ∨ x = -1 then number 1 else if -1 < x ∧ x < 1 then small else large

/-- The negative infinity keeps its sign under odd exponents. -/
protected def pow : Exact K → Exact K → Exact K
  | number x, number y => number (Transcendental.pow x y)
  | undefined, _ | _, undefined => undefined
  | top, number y => infinitePow top y
  | bottom, number y => infinitePow (if (⌊y⌋ : K) = y ∧ ⌊y⌋ % 2 = 1 then bottom else top) y
  | number x, top => powInfinite (number 0) top x
  | number x, bottom => powInfinite top (number 0) x
  | _, top => top
  | _, bottom => number 0

/-- The floor of a number. -/
def floorInt : Exact K → ℤ
  | number x => ⌊x⌋
  | _ => 0

instance : Extended (Exact K) where
  ofInt i := number i
  neg := Exact.neg
  abs := map (fun x => if 0 ≤ x then x else -x) top top
  floor := map (fun x => (⌊x⌋ : ℤ)) bottom top
  sqrt := map Transcendental.sqrt undefined top
  exp := map Transcendental.exp (number 0) top
  log := map Transcendental.log undefined top
  sin := map Transcendental.sin undefined undefined
  cos := map Transcendental.cos undefined undefined
  tanh := map Transcendental.tanh (number (-1)) (number 1)
  add := Exact.add
  sub a b := a.add b.neg
  mul := Exact.mul
  div := Exact.div
  min := Exact.min
  max := Exact.max
  pow := Exact.pow
  equal := Exact.equal
  less := Exact.less
  lessEq := Exact.lessEq
  index := floorInt
  top := top
  bottom := bottom
  ceil := map (fun x => (⌈x⌉ : ℤ)) bottom top
  isNaN := isUndefined
  isFinite := isNumber
  floorInt := floorInt

/-- The value of a constant. -/
def toNumber : Exact K → K
  | number x => x
  | _ => 0

instance : Embed (Exact K) K := ⟨toNumber⟩

end Exact

end ArrayDiff
