import Provenance.Block.Basic
import Provenance.Clause
import Provenance.Error
import Provenance.Grouping

/-!
# Cutting a body into blocks

A block starts wherever control can enter: at the start of the method, where an exception clause
starts, at the target of a branch, and after a conditional branch. `Block.partition` collects these
entries in the order of discovery, checks that an instruction starts at each of them, cuts the
instructions there, and checks that each block stops where the next one starts.
-/

namespace Provenance.Block

/-- Checks that instructions follow one another from `expected` on, and says where they end. -/
def tile : (expected : Nat) → List Instruction → Except Error Nat
  | expected, [] => .ok expected
  | expected, i :: rest =>
    if i.offset = expected then tile i.next rest else .error (.malformed (.gap expected))

/-- Where a clause lets control enter. -/
def clauseEntries (clause : Clause) (number : Nat) : List (Nat × Entry) :=
  (clause.tryStart, .tryStart number) :: (clause.handlerStart, .handlerStart number) ::
    (clause.filterStart?.map (·, Entry.filterStart number)).toList

/-- Where an instruction of a body of `length` bytes lets control enter. -/
def instructionEntries (length : Nat) (i : Instruction) : List (Nat × Entry) :=
  i.targets.map (·, .branch i.offset) ++
    if i.flow = .conditionalBranch ∧ i.next < length then [(i.next, .fallThrough i.offset)] else []

/-- Every offset at which control can enter a body, with the reason, in the order of discovery. -/
def discover (instructions : List Instruction) (length : Nat) (clauses : List Clause) :
    List (Nat × Entry) :=
  (0, .method) :: (clauses.zipIdx.flatMap fun (clause, number) => clauseEntries clause number) ++
    instructions.flatMap (instructionEntries length)

/-- Cuts instructions wherever there is an entry. -/
def cut (instructions : List Instruction) (entries : Grouping Entry) : List Block :=
  (instructions.splitBy fun _ i => (entries.group i.offset).isEmpty).filterMap fun
    | [] => none
    | i :: rest => some ⟨i, rest, entries.group i.offset⟩

/-- The start of the first block that does not stop at the next boundary, and that boundary: the
start of the next block or, after the last one, the end of a body of `length` bytes. -/
def unclosed? (length : Nat) : List Block → Option (Nat × Nat)
  | [] => none
  | b :: rest =>
    let boundary := (rest.head?.map start).getD length
    if b.stop = boundary then unclosed? length rest else some (b.start, boundary)

/-- The blocks of a body of `length` bytes with these instructions, given in any order. -/
def partition (instructions : List Instruction) (length : Nat) (clauses : List Clause) :
    Except Error (Array Block) := do
  if instructions.isEmpty || length = 0 then throw .empty
  let ordered := instructions.mergeSort fun i j => i.offset ≤ j.offset
  let stop ← tile 0 ordered
  if stop ≠ length then throw (.malformed (.wrongLength stop length))
  let entries := discover ordered length clauses
  let starts := ordered.toArray
  match entries.find? fun entry => !(Bisect.find? Instruction.offset starts entry.1).isSome with
  | some (offset, entry) => throw (.malformed (.notInstructionStart offset entry))
  | none =>
    let blocks := cut ordered (.ofList entries)
    match unclosed? length blocks with
    | some (start, boundary) => throw (.malformed (.openBlock start boundary))
    | none => return blocks.toArray

end Provenance.Block
