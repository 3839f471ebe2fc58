import ArrayDiff.Decimal.Binary

/-!
# Decimal digits of a ratio

Where the first digit of a positive ratio stands, the shortest digits that read back as the same float, and a fixed
number of digits correctly rounded. All arithmetic is exact.
-/

namespace ArrayDiff.Decimal

/-- The number of decimal digits; 0 has none. -/
def digitCount (n : Nat) : Nat := if n = 0 then 0 else (Nat.toDigits 10 n).length

/-- The power of ten of the first digit of `num / den`. -/
def magnitude (num den : Nat) : Int :=
  if den ≤ num then (digitCount (num / den) : Int) - 1 else -(digitCount ((den - 1) / num) : Int)

/-- The value `digits * 10 ^ exponent`. -/
structure Digits where
  digits : Nat
  exponent : Int
  deriving DecidableEq

/-- The point nearest to `value` on the grid of multiples of `unit` among those that lie at most `below` under it or
`above` over it, the ends included only if `closed`. Of two equally near points the upper one is taken. -/
def gridPoint? (value below above unit : Nat) (closed : Bool) : Option Nat :=
  let lower := value / unit
  let rest := value % unit
  let gap := unit - rest
  let lowerFits := rest < below || (closed && rest == below)
  let upperFits := gap < above || (closed && gap == above)
  if lowerFits && upperFits then some (if unit ≤ 2 * rest then lower + 1 else lower)
  else if lowerFits then some lower
  else if upperFits then some (lower + 1)
  else none

/-- Tries the grids of `10 ^ exponent` and finer ones until one has a point that reads back. -/
def searchGrids (value below above den : Nat) (closed : Bool) : Nat → Int → Digits
  | 0, exponent => ⟨value / den, exponent⟩
  | tries + 1, exponent =>
    let scale := Nat.pow 10 (-exponent).toNat
    match gridPoint? (value * scale) (below * scale) (above * scale) (den * Nat.pow 10 exponent.toNat) closed with
    | some digits => ⟨digits, exponent⟩
    | none => searchGrids value below above den closed tries (exponent - 1)

/-- The fewest digits that read back as the float `mantissa * 2 ^ exponent`. Reals half way to a neighbouring float
read back as this one when its mantissa is even; twenty grids are enough for seventeen digits. -/
def shortestDigits (mantissa : Nat) (exponent : Int) (binade : Bool) : Digits :=
  let (num, den) := ratio (4 * mantissa) (exponent - 2)
  let (quarter, _) := ratio 1 (exponent - 2)
  let below := if binade then quarter else 2 * quarter
  searchGrids num below (2 * quarter) den (mantissa % 2 == 0) 20 (magnitude num den + 1)

/-- The quotient rounded to a nearest integer, a tie to the even one. -/
def roundDiv (num den : Nat) : Nat :=
  let q := num / den
  let rest := num % den
  if 2 * rest < den || (2 * rest == den && q % 2 == 0) then q else q + 1

/-- Exactly `count` digits of `num / den`, correctly rounded. -/
def roundedDigits (count : Nat) (num den : Nat) : Digits :=
  let exponent := magnitude num den - (count - 1 : Nat)
  let digits := roundDiv (num * Nat.pow 10 (-exponent).toNat) (den * Nat.pow 10 exponent.toNat)
  if digits = Nat.pow 10 count then ⟨Nat.pow 10 (count - 1), exponent + 1⟩ else ⟨digits, exponent⟩

end ArrayDiff.Decimal
