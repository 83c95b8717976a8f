/-!
# Hexadecimal text

Numbers in base sixteen, either padded and in upper case, as labels and tokens show them, or
plain and in lower case, as escape sequences show them.
-/

namespace Provenance.Text

/-- A hexadecimal digit in upper case. -/
def upperDigit : Char → Char
  | 'a' => 'A'
  | 'b' => 'B'
  | 'c' => 'C'
  | 'd' => 'D'
  | 'e' => 'E'
  | 'f' => 'F'
  | c => c

/-- `n` in upper-case hexadecimal, padded with zeros to at least `width` digits. -/
def hex (width n : Nat) : String :=
  String.ofList (((Nat.toDigits 16 n).map upperDigit).leftpad width '0')

/-- `n` in lower-case hexadecimal, without padding. -/
def lowerHex (n : Nat) : String :=
  String.ofList (Nat.toDigits 16 n)

end Provenance.Text
