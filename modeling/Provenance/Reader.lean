import Provenance.Cursor

/-!
# Reading instruction by instruction

A reader stands at a place of a method body and reads an instruction each time it is asked for one.
It yields nothing at the end of the body, and nothing after a read that failed.
-/

namespace Provenance

/-- A reader of a method body. -/
structure Reader where
  cursor : Cursor
  /-- Whether a read has failed. -/
  failed : Bool
  deriving DecidableEq

namespace Reader

/-- The reader at the start of a body. -/
def ofBytes (bytes : List UInt8) : Reader :=
  ⟨.ofBytes bytes, false⟩

/-- Asks for an instruction: what the reader yields, if anything, and the reader afterwards. -/
def next (r : Reader) : Option (Except Error Instruction) × Reader :=
  if r.failed || !r.cursor.hasMore then (none, r)
  else
    match r.cursor.decode with
    | (.ok i, cursor) => (some (.ok i), ⟨cursor, false⟩)
    | (.error e, cursor) => (some (.error e), ⟨cursor, true⟩)

/-- What the reader yields when it is asked `n` times in a row. -/
def ask : (n : Nat) → Reader → List (Option (Except Error Instruction))
  | 0, _ => []
  | n + 1, r => r.next.1 :: ask n r.next.2

end Reader

end Provenance
