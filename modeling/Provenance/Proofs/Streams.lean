import Mathlib.Algebra.BigOperators.Group.List.Basic
import Mathlib.Data.Nat.Digits.Defs
import Provenance.Cursor
import Provenance.Proofs.Scalars

/-!
# Scalars in a row

A read at an offset finds the scalar whose bytes stand there, or leaves the offset as it is because
the data ends before the scalar does (`ScalarKind.readAt_cases`). So scalars of any kinds that were
written one after the other are read back one after the other, whatever stands before and after
them (`Scalar.readAll_of_drop_eq`), and what was read is written with the bytes that it was read
from (`Scalar.stream_roundTrip`).
-/

namespace Provenance

/-- Bytes are digits to base 256, the least significant first. -/
theorem Bytes.ofLittleEndian_eq_ofDigits (bytes : List UInt8) :
    ofLittleEndian bytes = Nat.ofDigits 256 (bytes.map UInt8.toNat) := by
  induction bytes with
  | nil => rfl
  | cons b rest ih => rw [ofLittleEndian, ih, List.map_cons, Nat.ofDigits_cons]

namespace ScalarKind

/-! ## The number that bytes stand for -/

/-- Whether a kind has negative values. -/
def isSigned : ScalarKind → Bool
  | .i8 | .i16 | .i32 | .i64 => true
  | _ => false

/-- A value as an integer. A floating-point value counts as its bit pattern. -/
def toInt : (kind : ScalarKind) → kind.Value → Int
  | .u8, v => v.toNat
  | .i8, v => v.toInt
  | .u16, v => v.toNat
  | .i16, v => v.toInt
  | .u32, v => v.toNat
  | .i32, v => v.toInt
  | .u64, v => v.toNat
  | .i64, v => v.toInt
  | .f32, v => v.toNat
  | .f64, v => v.toNat

/-- The number that bytes stand for: they are its digits to base 256, the least significant first,
and a signed kind takes it in two's complement. -/
def number (kind : ScalarKind) (bytes : List UInt8) : Int :=
  let digits : Nat := Nat.ofDigits 256 (bytes.map UInt8.toNat)
  if kind.isSigned then Int.bmod digits (256 ^ kind.width) else digits

/-- A value is its bit pattern, in two's complement if the kind is signed. -/
theorem toInt_ofBits {kind : ScalarKind} {n : Nat} (h : n < 256 ^ kind.width) :
    kind.toInt (kind.ofBits n) = if kind.isSigned then Int.bmod n (256 ^ kind.width) else n := by
  cases kind with
  | i8 | i16 | i32 | i64 => simp [toInt, ofBits, isSigned, width]
  | u8 | u16 | u32 | u64 | f32 | f64 =>
    have hbits := toBits_ofBits h
    simp only [toInt, isSigned, Bool.false_eq_true, ↓reduceIte]
    exact congrArg Int.ofNat hbits

/-- The value that bytes of the right number stand for is their number. -/
theorem toInt_decode {kind : ScalarKind} {bytes : List UInt8} (h : bytes.length = kind.width) :
    kind.toInt (kind.decode bytes) = kind.number bytes := by
  have hlt := Bytes.ofLittleEndian_lt bytes
  rw [h] at hlt
  rw [decode, toInt_ofBits hlt, number, Bytes.ofLittleEndian_eq_ofDigits]

/-! ## One scalar -/

/-- A scalar takes at least one byte. -/
theorem width_pos (kind : ScalarKind) : 0 < kind.width := by
  cases kind <;> decide

/-- What a read at an offset can do: it gives the scalar whose bytes stand there and moves the
offset behind it, or the place behind it cannot be held by a machine word or lies beyond the end,
and the offset stays. -/
theorem readAt_cases (kind : ScalarKind) (data : List UInt8) (offset : Nat) :
    (offset + kind.width < Instruction.wordLimit ∧ offset + kind.width ≤ data.length ∧
      kind.readAt data offset =
        (.ok (kind.decode ((data.drop offset).take kind.width)), offset + kind.width)) ∨
    (Instruction.wordLimit ≤ offset + kind.width ∨ data.length < offset + kind.width) ∧
      kind.readAt data offset = (.error .outOfBounds, offset) := by
  have hwidth := kind.width_pos
  rcases Nat.lt_or_ge (offset + kind.width) Instruction.wordLimit with hword | hword
  · have hadd : wordAdd? offset kind.width = some (offset + kind.width) := if_pos hword
    cases hsplit : Bytes.split? kind.width (data.drop offset) with
    | none =>
      have hshort := Bytes.split?_eq_none_iff.mp hsplit
      rw [List.length_drop] at hshort
      refine .inr ⟨.inr (by omega), ?_⟩
      simp only [readAt, readAt?, read?, hadd, hsplit, Option.map_none]
    | some split =>
      obtain ⟨front, rest⟩ := split
      obtain ⟨hdata, hfront⟩ := Bytes.split?_eq_some_iff.mp hsplit
      have hlength := congrArg List.length hdata
      rw [List.length_drop, List.length_append, hfront] at hlength
      refine .inl ⟨hword, by omega, ?_⟩
      rw [hdata, List.take_left' hfront]
      simp only [readAt, readAt?, read?, hadd, hsplit, Option.map_some]
  · have hadd : wordAdd? offset kind.width = none := if_neg (Nat.not_lt.mpr hword)
    exact .inr ⟨.inl hword, by simp only [readAt, hadd]⟩

end ScalarKind

/-! ## Several scalars -/

/-- A scalar: its kind and its value. -/
structure Scalar where
  kind : ScalarKind
  value : kind.Value

namespace Scalar

/-- Number of bytes of a scalar. -/
def width (s : Scalar) : Nat :=
  s.kind.width

/-- The bytes of a scalar. -/
def bytes (s : Scalar) : List UInt8 :=
  s.kind.encode s.value

/-- Appends scalars to a buffer, one after the other. -/
def writeAll (buffer : List UInt8) (scalars : List Scalar) : List UInt8 :=
  scalars.foldl (fun buffer s => s.kind.write buffer s.value) buffer

/-- Reads scalars of some kinds one after the other, from an offset on. A read that fails is the
last one. -/
def readAll (data : List UInt8) : List ScalarKind → Nat → Except Error (List Scalar) × Nat
  | [], offset => (.ok [], offset)
  | kind :: kinds, offset =>
    match kind.readAt data offset with
    | (.error e, stop) => (.error e, stop)
    | (.ok value, stop) =>
      ((readAll data kinds stop).1.map (⟨kind, value⟩ :: ·), (readAll data kinds stop).2)

/-- Scalars that are written stand behind what was there. -/
theorem writeAll_eq (buffer : List UInt8) (scalars : List Scalar) :
    writeAll buffer scalars = buffer ++ scalars.flatMap bytes := by
  induction scalars generalizing buffer with
  | nil => exact (List.append_nil _).symm
  | cons s rest ih =>
    have hrest : writeAll buffer (s :: rest) = writeAll (buffer ++ s.bytes) rest := rfl
    rw [hrest, ih, List.append_assoc, List.flatMap_cons]

/-- Scalars whose bytes stand at an offset are read there, one after the other. -/
theorem readAll_of_drop_eq {data after : List UInt8} (fits : data.length < Instruction.wordLimit)
    {scalars : List Scalar} {offset : Nat}
    (h : data.drop offset = scalars.flatMap bytes ++ after) :
    readAll data (scalars.map kind) offset = (.ok scalars, offset + (scalars.map width).sum) := by
  induction scalars generalizing offset with
  | nil => rfl
  | cons s rest ih =>
    rw [List.flatMap_cons, List.append_assoc] at h
    have hwidth : s.bytes.length = s.kind.width := ScalarKind.length_encode ..
    have hlength := congrArg List.length h
    rw [List.length_drop, List.length_append, hwidth] at hlength
    have hpos := s.kind.width_pos
    rcases s.kind.readAt_cases data offset with ⟨-, -, hread⟩ | ⟨hbeyond, -⟩
    · rw [h, List.take_left' hwidth, bytes, ScalarKind.decode_encode] at hread
      have hnext : data.drop (offset + s.kind.width) = rest.flatMap bytes ++ after := by
        rw [← List.drop_drop, h, List.drop_left' hwidth]
      simp only [List.map_cons, readAll, hread, ih hnext, List.sum_cons, ← Nat.add_assoc]
      rfl
    · omega

/-- Scalars that were written are read back. The data holds what was there before, the scalars one
after the other, and whatever follows, and can be counted by a machine word. Then reading the same
kinds from behind what was there before gives the same scalars and ends behind them. What a read
gives is the number that the bytes stand for, and writing it gives these bytes. A read fails exactly
if the place behind the scalar lies beyond the end, and then the offset stays. -/
theorem stream_roundTrip {data : List UInt8} (fits : data.length < Instruction.wordLimit) :
    (∀ (before after : List UInt8) (scalars : List Scalar),
      data = writeAll before scalars ++ after →
      readAll data (scalars.map kind) before.length =
        (.ok scalars, before.length + (scalars.map width).sum)) ∧
    (∀ (kind : ScalarKind) (offset stop : Nat) (value : kind.Value),
      kind.readAt data offset = (.ok value, stop) →
      stop = offset + kind.width ∧
      kind.toInt value = kind.number ((data.drop offset).take kind.width) ∧
      ∀ buffer, kind.write buffer value = buffer ++ (data.drop offset).take kind.width) ∧
    ∀ (kind : ScalarKind) (offset stop : Nat) (e : Error),
      kind.readAt data offset = (.error e, stop) ↔
        e = .outOfBounds ∧ stop = offset ∧ data.length < offset + kind.width := by
  refine ⟨fun before after scalars hdata => ?_, fun kind offset stop value hread => ?_,
    fun kind offset stop e => ?_⟩
  · have hdrop : data.drop before.length = scalars.flatMap bytes ++ after := by
      rw [hdata, writeAll_eq, List.append_assoc, List.drop_left]
    exact readAll_of_drop_eq fits hdrop
  · rcases kind.readAt_cases data offset with ⟨-, hinside, heq⟩ | ⟨-, heq⟩
    · cases heq.symm.trans hread
      have hlength : ((data.drop offset).take kind.width).length = kind.width := by
        rw [List.length_take, List.length_drop]
        omega
      refine ⟨rfl, ScalarKind.toInt_decode hlength, fun buffer => ?_⟩
      rw [ScalarKind.write, ScalarKind.encode_decode hlength]
    · cases heq.symm.trans hread
  · rcases kind.readAt_cases data offset with ⟨-, hinside, heq⟩ | ⟨hbeyond, heq⟩
    · rw [heq]
      refine ⟨nofun, fun ⟨_, _, hshort⟩ => absurd hinside (Nat.not_le.mpr hshort)⟩
    · have hshort : data.length < offset + kind.width := by omega
      rw [heq]
      refine ⟨fun h => ?_, fun ⟨he, hstop, _⟩ => by rw [he, hstop]⟩
      cases h
      exact ⟨rfl, rfl, hshort⟩

/-- Scalars of several kinds and widths. -/
def mixed : List Scalar :=
  [⟨.i16, -2⟩, ⟨.f64, 0x3FF8000000000000⟩, ⟨.u8, 7⟩, ⟨.i64, -9223372036854775808⟩,
    ⟨.u32, 4294967295⟩]

/-- Their bytes, behind one byte and before another. -/
def mixedBytes : List UInt8 :=
  [0xFF, 0xFE, 0xFF, 0, 0, 0, 0, 0, 0, 0xF8, 0x3F, 7, 0, 0, 0, 0, 0, 0, 0, 0x80,
    0xFF, 0xFF, 0xFF, 0xFF, 0x2A]

/-- Scalars of several widths behind one byte and before another are read back. The largest number
that a machine word can hold is beyond the end. -/
theorem stream_roundTrip_mixed :
    writeAll [0xFF] mixed ++ [0x2A] = mixedBytes ∧
      readAll (writeAll [0xFF] mixed ++ [0x2A]) [.i16, .f64, .u8, .i64, .u32] 1 = (.ok mixed, 24) ∧
      ScalarKind.u8.readAt (writeAll [0xFF] mixed ++ [0x2A]) 0xFFFFFFFFFFFFFFFF =
        (.error .outOfBounds, 0xFFFFFFFFFFFFFFFF) := by
  have hdata : writeAll [0xFF] mixed ++ [0x2A] = mixedBytes := by decide
  have fits : (writeAll [0xFF] mixed ++ [0x2A]).length < Instruction.wordLimit := by
    rw [hdata]
    decide
  obtain ⟨hread, -, hfails⟩ := stream_roundTrip fits
  refine ⟨hdata, hread [0xFF] [0x2A] mixed rfl, (hfails ..).mpr ⟨rfl, rfl, ?_⟩⟩
  rw [hdata]
  decide

end Scalar

end Provenance
