import Provenance.Bytes.LittleEndian

/-!
# Scalars

The ten fixed-width number types of a method body and their bytes. A floating-point scalar is kept
as its bit pattern, so that no payload of a not-a-number is lost between reading and writing.
-/

namespace Provenance

/-- The type of a fixed-width number. -/
inductive ScalarKind
  | u8 | i8 | u16 | i16 | u32 | i32 | u64 | i64 | f32 | f64
  deriving DecidableEq

namespace ScalarKind

/-- Number of bytes a scalar of this kind takes. -/
def width : ScalarKind → Nat
  | .u8 | .i8 => 1
  | .u16 | .i16 => 2
  | .u32 | .i32 | .f32 => 4
  | .u64 | .i64 | .f64 => 8

/-- The values of a kind. Floating-point values are bit patterns. -/
abbrev Value : ScalarKind → Type
  | .u8 => UInt8
  | .i8 => Int8
  | .u16 => UInt16
  | .i16 => Int16
  | .u32 => UInt32
  | .i32 => Int32
  | .u64 => UInt64
  | .i64 => Int64
  | .f32 => UInt32
  | .f64 => UInt64

/-- The bit pattern of a value, read as a natural number. -/
def toBits : (kind : ScalarKind) → kind.Value → Nat
  | .u8, v => v.toNat
  | .i8, v => v.toUInt8.toNat
  | .u16, v => v.toNat
  | .i16, v => v.toUInt16.toNat
  | .u32, v => v.toNat
  | .i32, v => v.toUInt32.toNat
  | .u64, v => v.toNat
  | .i64, v => v.toUInt64.toNat
  | .f32, v => v.toNat
  | .f64, v => v.toNat

/-- The value whose bit pattern is the lowest bits of a natural number. -/
def ofBits : (kind : ScalarKind) → Nat → kind.Value
  | .u8, n => UInt8.ofNat n
  | .i8, n => (UInt8.ofNat n).toInt8
  | .u16, n => UInt16.ofNat n
  | .i16, n => (UInt16.ofNat n).toInt16
  | .u32, n => UInt32.ofNat n
  | .i32, n => (UInt32.ofNat n).toInt32
  | .u64, n => UInt64.ofNat n
  | .i64, n => (UInt64.ofNat n).toInt64
  | .f32, n => UInt32.ofNat n
  | .f64, n => UInt64.ofNat n

/-- The bytes of a value, least significant first. -/
def encode (kind : ScalarKind) (value : kind.Value) : List UInt8 :=
  Bytes.toLittleEndian kind.width (kind.toBits value)

/-- The value that `bytes` stands for, least significant byte first. -/
def decode (kind : ScalarKind) (bytes : List UInt8) : kind.Value :=
  kind.ofBits (Bytes.ofLittleEndian bytes)

/-- Reads a scalar off the front of `bytes`: the value and what follows it. -/
def read? (kind : ScalarKind) (bytes : List UInt8) : Option (kind.Value × List UInt8) :=
  (Bytes.split? kind.width bytes).map fun (front, rest) => (kind.decode front, rest)

/-- Reads the scalar that starts at `offset` of `data`: the value and the offset after it. -/
def readAt? (kind : ScalarKind) (data : List UInt8) (offset : Nat) : Option (kind.Value × Nat) :=
  (kind.read? (data.drop offset)).map fun (value, _) => (value, offset + kind.width)

end ScalarKind

end Provenance
