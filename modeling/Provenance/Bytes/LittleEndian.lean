/-!
# Little-endian numbers

A number of `width` bytes is stored with its least significant byte first. `split?` cuts a fixed
number of bytes off the front of a list and is how every reader in this library consumes input.
-/

namespace Provenance.Bytes

/-- The number that `bytes` stands for, least significant byte first. -/
def ofLittleEndian : List UInt8 → Nat
  | [] => 0
  | b :: bs => b.toNat + 256 * ofLittleEndian bs

/-- The lowest `width` bytes of `n`, least significant byte first. -/
def toLittleEndian : (width n : Nat) → List UInt8
  | 0, _ => []
  | width + 1, n => UInt8.ofNat n :: toLittleEndian width (n / 256)

/-- The first `n` bytes and what follows them, if there are that many. -/
def split? (n : Nat) (bytes : List UInt8) : Option (List UInt8 × List UInt8) :=
  let front := bytes.take n
  if front.length = n then some (front, bytes.drop n) else none

end Provenance.Bytes
