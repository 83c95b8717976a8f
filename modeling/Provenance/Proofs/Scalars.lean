import Mathlib.Algebra.Order.Ring.Nat
import Mathlib.Tactic.Ring
import Provenance.Scalar

/-!
# Scalars and their bytes

A scalar takes as many bytes as its width says, and reading and writing undo each other:
`ScalarKind.decode_encode` for every value and `ScalarKind.encode_decode` for all bytes of the right
number. Both go through the bit pattern of a scalar, a number below a power of 256, and the
little-endian digits of such numbers.
-/

namespace Provenance

/-! ## Little-endian numbers -/

namespace Bytes

/-- As many bytes are written as asked for. -/
@[simp] theorem length_toLittleEndian : ∀ width n, (toLittleEndian width n).length = width
  | 0, _ => rfl
  | width + 1, n => by rw [toLittleEndian, List.length_cons, length_toLittleEndian width]

/-- Bytes stand for a number that fits them. -/
theorem ofLittleEndian_lt (bytes : List UInt8) : ofLittleEndian bytes < 256 ^ bytes.length := by
  induction bytes with
  | nil => decide
  | cons b rest ih =>
    have hb := b.toNat_lt
    rw [ofLittleEndian, List.length_cons, pow_succ]
    omega

/-- Writing a number that was read gives its bytes back. -/
theorem toLittleEndian_ofLittleEndian (bytes : List UInt8) :
    toLittleEndian bytes.length (ofLittleEndian bytes) = bytes := by
  induction bytes with
  | nil => rfl
  | cons b rest ih =>
    have hb := b.toNat_lt
    rw [List.length_cons, toLittleEndian, ofLittleEndian]
    have hfirst : UInt8.ofNat (b.toNat + 256 * ofLittleEndian rest) = b := by
      rw [← UInt8.toNat_inj, UInt8.toNat_ofNat']
      omega
    have hrest : (b.toNat + 256 * ofLittleEndian rest) / 256 = ofLittleEndian rest := by
      omega
    rw [hfirst, hrest, ih]

/-- Reading a number that was written gives it back, if it fits. -/
theorem ofLittleEndian_toLittleEndian {width n : Nat} (h : n < 256 ^ width) :
    ofLittleEndian (toLittleEndian width n) = n := by
  induction width generalizing n with
  | zero =>
    rw [pow_zero, Nat.lt_one_iff] at h
    rw [h]
    rfl
  | succ width ih =>
    rw [pow_succ] at h
    rw [toLittleEndian, ofLittleEndian, ih (by omega), UInt8.toNat_ofNat']
    omega

/-- Bytes are split off the front exactly if there are that many. -/
theorem split?_eq_some_iff {n : Nat} {bytes front rest : List UInt8} :
    split? n bytes = some (front, rest) ↔ bytes = front ++ rest ∧ front.length = n := by
  unfold split?
  constructor
  · intro h
    simp only at h
    split at h
    · next hlen =>
      cases h
      exact ⟨(List.take_append_drop ..).symm, hlen⟩
    · cases h
  · rintro ⟨rfl, rfl⟩
    simp

/-- Bytes cannot be split off the front exactly if there are too few. -/
theorem split?_eq_none_iff {n : Nat} {bytes : List UInt8} :
    split? n bytes = none ↔ bytes.length < n := by
  simp only [split?, List.length_take]
  split <;> simp <;> omega

end Bytes

/-! ## Scalars -/

namespace ScalarKind

/-- A bit pattern fits the width of its scalar. -/
theorem toBits_lt (kind : ScalarKind) (value : kind.Value) :
    kind.toBits value < 256 ^ kind.width := by
  cases kind with
  | u8 | u16 | u32 | u64 | f32 | f64 => exact value.toNat_lt
  | i8 => exact value.toUInt8.toNat_lt
  | i16 => exact value.toUInt16.toNat_lt
  | i32 => exact value.toUInt32.toNat_lt
  | i64 => exact value.toUInt64.toNat_lt

/-- A value is given by its bit pattern. -/
theorem ofBits_toBits (kind : ScalarKind) (value : kind.Value) :
    kind.ofBits (kind.toBits value) = value := by
  cases kind <;> simp [ofBits, toBits]

/-- A number that fits is the bit pattern of the value it gives. -/
theorem toBits_ofBits {kind : ScalarKind} {n : Nat} (h : n < 256 ^ kind.width) :
    kind.toBits (kind.ofBits n) = n := by
  cases kind <;> simpa [ofBits, toBits, width] using h

/-- A value takes as many bytes as its width says. -/
@[simp] theorem length_encode (kind : ScalarKind) (value : kind.Value) :
    (kind.encode value).length = kind.width :=
  Bytes.length_toLittleEndian ..

/-- Reading undoes writing. -/
@[simp] theorem decode_encode (kind : ScalarKind) (value : kind.Value) :
    kind.decode (kind.encode value) = value := by
  rw [decode, encode, Bytes.ofLittleEndian_toLittleEndian (kind.toBits_lt value), ofBits_toBits]

/-- Writing undoes reading. -/
theorem encode_decode {kind : ScalarKind} {bytes : List UInt8} (h : bytes.length = kind.width) :
    kind.encode (kind.decode bytes) = bytes := by
  rw [encode, decode, toBits_ofBits (h ▸ Bytes.ofLittleEndian_lt bytes), ← h,
    Bytes.toLittleEndian_ofLittleEndian]

end ScalarKind

end Provenance
