import ArrayDiff.Decimal.Digits

/-!
# Text of floats

Two forms: the shortest digits that read back, always written positionally, and a fixed number of digits with an
exponent. Whether zero keeps its sign is up to the writer.
-/

namespace ArrayDiff.Decimal

/-- The digits without exponent: zeros fill up to the point on either side. -/
def positional (d : Digits) : String :=
  let text := Nat.toDigits 10 d.digits
  if 0 ≤ d.exponent then
    String.ofList (text ++ List.replicate d.exponent.toNat '0')
  else
    let places := (-d.exponent).toNat
    let padded := List.replicate (places + 1 - text.length) '0' ++ text
    let whole := padded.length - places
    String.ofList (padded.take whole ++ '.' :: padded.drop whole)

/-- One digit before the point, the others behind it, and the power of ten after the letter e. -/
def scientific (d : Digits) : String :=
  let text := Nat.toDigits 10 d.digits
  let exponent := d.exponent + (text.length - 1 : Nat)
  String.ofList (text.take 1 ++ '.' :: text.drop 1) ++ "e" ++ toString exponent

def signText (negative : Bool) : String := if negative then "-" else ""

/-- How zero and finite positive values are written. -/
structure Style where
  /-- Whether a negative zero shows its sign. -/
  signedZero : Bool
  /-- The text of the positive float `mantissa * 2 ^ exponent`. -/
  positive : Nat → Int → Bool → String

/-- The fewest digits that read back, written positionally. -/
def Style.exact (signedZero : Bool) : Style :=
  ⟨signedZero, fun mantissa exponent binade => positional (shortestDigits mantissa exponent binade)⟩

/-- A fixed number of significant digits. -/
def Style.rounded (count : Nat) : Style :=
  ⟨false, fun mantissa exponent _ =>
    let (num, den) := ratio mantissa exponent
    scientific (roundedDigits count num den)⟩

/-- The text of a float in a style. -/
def Style.write (s : Style) : Binary → String
  | .nan => "NaN"
  | .infinite negative => signText negative ++ "inf"
  | .finite negative mantissa exponent binade =>
    if mantissa = 0 then signText (negative && s.signedZero) ++ "0"
    else signText negative ++ s.positive mantissa exponent binade

end ArrayDiff.Decimal

namespace ArrayDiff

/-- Constants that have a text in expressions. -/
class Literal (κ : Type) where
  text : κ → String

/-- The fewest digits that read back, a negative zero with its sign. -/
instance : Literal Float := ⟨fun x => (Decimal.Style.exact true).write (Decimal.ofDouble x)⟩

end ArrayDiff
