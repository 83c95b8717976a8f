import Provenance.Instruction.Decode

/-!
# Cursors

Data is read at an offset, or with a cursor, which is a position in data together with the bytes
from there on. A read ends at a place that a machine word can hold and that the data reaches, or it
fails. A failed read of a scalar, or a failed advance, leaves the offset or the cursor where it was;
a failed read of an instruction leaves the cursor where reading stopped.
-/

namespace Provenance

/-- The sum of two numbers, if a machine word can hold it. -/
def wordAdd? (a b : Nat) : Option Nat :=
  if a + b < Instruction.wordLimit then some (a + b) else none

namespace ScalarKind

/-- Reads the scalar that starts at `offset` of `data`. The offset moves behind it, or stays if the
read fails. -/
def readAt (kind : ScalarKind) (data : List UInt8) (offset : Nat) :
    Except Error kind.Value × Nat :=
  match wordAdd? offset kind.width, kind.readAt? data offset with
  | some stop, some (value, _) => (.ok value, stop)
  | _, _ => (.error .outOfBounds, offset)

/-- Appends a scalar to a buffer. -/
def write (kind : ScalarKind) (buffer : List UInt8) (value : kind.Value) : List UInt8 :=
  buffer ++ kind.encode value

end ScalarKind

/-- A position in data. -/
structure Cursor where
  position : Nat
  /-- The bytes from the position on. -/
  rest : List UInt8
  deriving DecidableEq

namespace Cursor

/-- The cursor at the start of data. -/
def ofBytes (data : List UInt8) : Cursor :=
  ⟨0, data⟩

/-- Whether the end is not reached. -/
def hasMore (c : Cursor) : Bool :=
  !c.rest.isEmpty

/-- The cursor `n` bytes further on, where there are that many. -/
def skip (c : Cursor) (n : Nat) : Cursor :=
  ⟨c.position + n, c.rest.drop n⟩

/-- Moves over `n` bytes. The cursor stays if this fails. -/
def advance (c : Cursor) (n : Nat) : Except Error Unit × Cursor :=
  match wordAdd? c.position n, Bytes.split? n c.rest with
  | some _, some _ => (.ok (), c.skip n)
  | _, _ => (.error .outOfBounds, c)

/-- Reads a scalar. The cursor stays if this fails. -/
def read (kind : ScalarKind) (c : Cursor) : Except Error kind.Value × Cursor :=
  match wordAdd? c.position kind.width, kind.read? c.rest with
  | some _, some (value, _) => (.ok value, c.skip kind.width)
  | _, _ => (.error .outOfBounds, c)

/-- Reads an instruction. The cursor moves also if this fails. -/
def decode (c : Cursor) : Except Error Instruction × Cursor :=
  match Instruction.decode c.position c.rest with
  | .ok i => (.ok i, c.skip i.size)
  | .error stop => (.error stop.error, c.skip stop.consumed)

end Cursor

end Provenance
