/-!
# Binary floating-point formats

A float as the integer ratio it stands for: `Format.decode` splits the bits of a format into sign, mantissa and
exponent of two.
-/

namespace ArrayDiff.Decimal

/-- The widths of the stored mantissa and of the exponent. -/
structure Format where
  mantissaBits : Nat
  exponentBits : Nat

def Format.double : Format := ⟨52, 11⟩

def Format.single : Format := ⟨23, 8⟩

/-- What a float stands for; a finite one is `mantissa * 2 ^ exponent`, and `binade` tells that the floats below it lie
half as far apart as those above. -/
inductive Binary where
  | nan
  | infinite (negative : Bool)
  | finite (negative : Bool) (mantissa : Nat) (exponent : Int) (binade : Bool)
  deriving DecidableEq

/-- The power of two of the lowest mantissa bit of a subnormal float. -/
def Format.leastExponent (f : Format) : Int := 2 - (Nat.pow 2 (f.exponentBits - 1) + f.mantissaBits : Nat)

/-- The float that a bit pattern stands for. All exponent bits set mean an infinity or a NaN, none a subnormal. -/
def Format.decode (f : Format) (bits : Nat) : Binary :=
  let fraction := bits % Nat.pow 2 f.mantissaBits
  let exponent := bits / Nat.pow 2 f.mantissaBits % Nat.pow 2 f.exponentBits
  let negative := bits / Nat.pow 2 (f.mantissaBits + f.exponentBits) % 2 = 1
  if exponent = Nat.pow 2 f.exponentBits - 1 then
    if fraction = 0 then .infinite negative else .nan
  else if exponent = 0 then
    .finite negative fraction f.leastExponent false
  else
    .finite negative (Nat.pow 2 f.mantissaBits + fraction) (f.leastExponent + (exponent - 1 : Nat)) (fraction = 0)

def ofDouble (x : Float) : Binary := Format.double.decode x.toBits.toNat

def ofSingle (x : Float32) : Binary := Format.single.decode x.toBits.toNat

/-- `mantissa * 2 ^ exponent` as a ratio of naturals. -/
def ratio (mantissa : Nat) (exponent : Int) : Nat × Nat :=
  (mantissa * Nat.pow 2 exponent.toNat, Nat.pow 2 (-exponent).toNat)

end ArrayDiff.Decimal
