import Provenance.Bisect
import Provenance.Block.Entry
import Provenance.Instruction.Basic

/-!
# Blocks

A basic block is a sequence of instructions that control enters only at the first and leaves only
after the last. The first instruction is kept apart, so that no block is empty.
-/

namespace Provenance

/-- A basic block. -/
structure Block where
  head : Instruction
  tail : List Instruction
  /-- Why control can reach the block, in ascending order. -/
  entries : List Entry
  deriving DecidableEq

namespace Block

/-- The instructions of a block. -/
def instructions (b : Block) : List Instruction :=
  b.head :: b.tail

/-- The offset of the first instruction. -/
def start (b : Block) : Nat :=
  b.head.offset

/-- The last instruction. -/
def last (b : Block) : Instruction :=
  b.tail.getLastD b.head

/-- The offset after the last instruction. -/
def stop (b : Block) : Nat :=
  b.last.next

/-- Whether the method starts with the block. -/
def isEntry (b : Block) : Bool :=
  b.entries.contains .method

/-- Whether an offset lies in the block. -/
def contains (b : Block) (offset : Nat) : Bool :=
  b.start ≤ offset && offset < b.stop

/-- The block that starts at an offset, among blocks in ascending order. -/
def find? (blocks : Array Block) (start : Nat) : Option Block :=
  Bisect.find? Block.start blocks start

end Block

end Provenance
