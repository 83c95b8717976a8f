/-!
# The shortest decimal of a binary floating-point number

A floating-point number stands for every real number that rounds to it. `shortest` picks, among
the decimals in that interval, one with the fewest digits, and of several of that length the one
closest to the number; a tie goes to the greater. The search is exact: all comparisons are between
natural numbers.
-/

namespace Provenance.Decimal

/-- A binary floating-point format: a sign bit, an exponent field and a fraction field. -/
structure BinaryFormat where
  fractionBits : Nat
  exponentBits : Nat

/-- The format of 32 bits. -/
def single : BinaryFormat := ⟨23, 8⟩

/-- The format of 64 bits. -/
def double : BinaryFormat := ⟨52, 11⟩

/-- A finite magnitude `significand * 2 ^ exponent`. -/
structure Magnitude where
  significand : Nat
  exponent : Int
  /-- Whether the next smaller number is only half as far away as the next greater one. -/
  isPowerOfTwo : Bool

/-- What a bit pattern stands for. -/
inductive Reading
  | nan
  | infinite (negative : Bool)
  | finite (negative : Bool) (magnitude : Magnitude)

namespace BinaryFormat

/-- Number of values of the fraction field. -/
def fractions (format : BinaryFormat) : Nat :=
  Nat.pow 2 format.fractionBits

/-- Number of values of the exponent field. -/
def exponents (format : BinaryFormat) : Nat :=
  Nat.pow 2 format.exponentBits

/-- The exponent of a number whose exponent field is one and whose significand is an integer. -/
def leastExponent (format : BinaryFormat) : Int :=
  2 - (format.exponents / 2 : Nat) - format.fractionBits

/-- Takes a bit pattern apart. -/
def read (format : BinaryFormat) (bits : Nat) : Reading :=
  let fraction := bits % format.fractions
  let field := bits / format.fractions % format.exponents
  let negative := bits / format.fractions / format.exponents % 2 = 1
  if field = format.exponents - 1 then
    if fraction = 0 then .infinite negative else .nan
  else if field = 0 then
    .finite negative ⟨fraction, format.leastExponent, false⟩
  else
    .finite negative
      ⟨format.fractions + fraction, format.leastExponent + (field - 1), fraction = 0⟩

end BinaryFormat

/-- A decimal `digits * 10 ^ exponent`. -/
structure Scaled where
  digits : Nat
  exponent : Int

/-- Moves the zeros at the end of the digits into the exponent; `fuel` bounds their number. -/
def Scaled.strip : (fuel : Nat) → Scaled → Scaled
  | 0, d => d
  | fuel + 1, d =>
    if d.digits ≠ 0 ∧ d.digits % 10 = 0 then strip fuel ⟨d.digits / 10, d.exponent + 1⟩ else d

/-- Number of decimal digits of `n`. -/
def digitCount (n : Nat) : Nat :=
  (Nat.toDigits 10 n).length

namespace Magnitude

/-- The power of ten just above a positive number: the least `k` with the number below `10 ^ k`. -/
def scale (m : Magnitude) : Int :=
  let numerator := m.significand * Nat.pow 2 m.exponent.toNat
  let denominator := Nat.pow 2 (-m.exponent).toNat
  if denominator ≤ numerator then digitCount (numerator / denominator)
  else 1 - (digitCount ((denominator - 1) / numerator) : Int)

/-- The decimal closest to `m` that is a multiple of `10 ^ exponent` and rounds to `m`, if there is
one. Quarters of the unit in the last place make all bounds integers. -/
def nearestAt? (m : Magnitude) (exponent : Int) : Option Nat :=
  let shift := m.exponent - 2
  let left := Nat.pow 2 shift.toNat * Nat.pow 10 (-exponent).toNat
  let right := Nat.pow 2 (-shift).toNat * Nat.pow 10 exponent.toNat
  let centre := 4 * m.significand * left
  let low := (4 * m.significand - if m.isPowerOfTwo then 1 else 2) * left
  let high := (4 * m.significand + 2) * left
  let inside (digits : Nat) : Bool :=
    if m.significand % 2 = 0 then low ≤ digits * right && digits * right ≤ high
    else low < digits * right && digits * right < high
  let below := centre / right
  match inside below, inside (below + 1) with
  | true, true => if 2 * centre < (2 * below + 1) * right then some below else some (below + 1)
  | true, false => some below
  | false, true => some (below + 1)
  | false, false => none

/-- Tries the multiples of ever smaller powers of ten, `fuel` of them; the last one is taken by
rounding down. -/
def search (m : Magnitude) : (fuel : Nat) → (exponent : Int) → Scaled
  | 0, exponent =>
    let left := Nat.pow 2 m.exponent.toNat * Nat.pow 10 (-exponent).toNat
    let right := Nat.pow 2 (-m.exponent).toNat * Nat.pow 10 exponent.toNat
    ⟨m.significand * left / right, exponent⟩
  | fuel + 1, exponent =>
    match m.nearestAt? exponent with
    | some digits => ⟨digits, exponent⟩
    | none => search m fuel (exponent - 1)

/-- The shortest decimal that rounds to a positive number. Seventeen digits always suffice for the
formats above. -/
def shortest (m : Magnitude) : Scaled :=
  (m.search 17 (m.scale - 1)).strip 17

end Magnitude

end Provenance.Decimal
