import Provenance.Decimal.Shortest

/-!
# Layouts of decimals

How a floating-point number is written once its digits are known: whether an integer shows its
point, and which magnitudes are written with an exponent.
-/

namespace Provenance.Decimal

/-- The decisions of a number format. -/
structure Layout where
  /-- Whether an integer is written with `.0`. -/
  keepsPoint : Bool
  /-- The places of the decimal point, counted from the first digit, between which a number is
  written positionally. Without bounds every number is. -/
  positional? : Option (Int × Int)

namespace Layout

/-- Digits with the decimal point at `place`, counted from the first digit. -/
def writePositional (layout : Layout) (digits : List Char) (place : Int) : String :=
  let zeros (n : Nat) := List.replicate n '0'
  if place ≤ 0 then
    String.ofList ('0' :: '.' :: (zeros (-place).toNat ++ digits))
  else if digits.length ≤ place.toNat then
    String.ofList (digits ++ zeros (place.toNat - digits.length)) ++
      if layout.keepsPoint then ".0" else ""
  else
    String.ofList (digits.take place.toNat ++ '.' :: digits.drop place.toNat)

/-- Digits with the decimal point after the first one, and the exponent that moves it to `place`. -/
def writeScientific (digits : List Char) (place : Int) : String :=
  let mantissa :=
    match digits with
    | first :: second :: rest => first :: '.' :: second :: rest
    | short => short
  s!"{String.ofList mantissa}e{place - 1}"

/-- A finite magnitude as text. -/
def writeMagnitude (layout : Layout) (m : Magnitude) : String :=
  if m.significand = 0 then
    if layout.keepsPoint then "0.0" else "0"
  else
    let decimal := m.shortest
    let digits := Nat.toDigits 10 decimal.digits
    let place := decimal.exponent + digits.length
    match layout.positional? with
    | none => layout.writePositional digits place
    | some (low, high) =>
      if low ≤ place ∧ place ≤ high then layout.writePositional digits place
      else writeScientific digits place

/-- The number that a bit pattern stands for, as text. -/
def write (layout : Layout) (format : BinaryFormat) (bits : Nat) : String :=
  match format.read bits with
  | .nan => "NaN"
  | .infinite negative => if negative then "-inf" else "inf"
  | .finite negative m => (if negative then "-" else "") ++ layout.writeMagnitude m

end Layout

end Provenance.Decimal
