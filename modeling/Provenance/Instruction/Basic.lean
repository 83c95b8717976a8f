import Provenance.OpCode.Basic
import Provenance.Operand
import Provenance.Resolver
import Provenance.Text.Quoted

/-!
# Instructions

An instruction of a method body: where it stands, its opcode and operand, and the bytes it is
written with. Two instructions are equal when they stand at the same place and are written with the
same bytes.
-/

namespace Provenance

/-- An instruction of a method body. -/
structure Instruction where
  offset : Nat
  opcode : OpCode
  operand : Operand
  /-- The opcode and the operand as they are stored. -/
  bytes : List UInt8
  deriving DecidableEq

namespace Instruction

/-- Number of bytes of the instruction. -/
def size (i : Instruction) : Nat :=
  i.bytes.length

/-- The offset after the instruction. -/
def next (i : Instruction) : Nat :=
  i.offset + i.size

/-- The mnemonic. -/
def name (i : Instruction) : String :=
  i.opcode.name

/-- How control goes on after the instruction. -/
def flow (i : Instruction) : Flow :=
  i.opcode.flow

/-- Two instructions are the same if they stand at the same offset and have the same opcode and
the same bytes. -/
def same (i j : Instruction) : Bool :=
  i.offset = j.offset && i.size = j.size && i.opcode.value = j.opcode.value && i.bytes = j.bytes

/-- The target of a branch with a single one. -/
def branchTarget? (i : Instruction) : Option Nat :=
  match i.operand with
  | .target offset => some offset
  | _ => none

/-- The targets of a switch. -/
def switchTargets (i : Instruction) : List Nat :=
  match i.operand with
  | .switch targets => targets
  | _ => []

/-- The number of cases of a switch. -/
def caseCount? (i : Instruction) : Option Nat :=
  match i.operand with
  | .switch targets => some targets.length
  | _ => none

/-- Every offset that the instruction can branch to, in the order of its operand. -/
def targets (i : Instruction) : List Nat :=
  match i.operand with
  | .target offset => [offset]
  | .switch targets => targets
  | _ => []

/-- The targets of an instruction are that of a branch and those of a switch. -/
theorem mem_targets_iff {i : Instruction} {t : Nat} :
    t ∈ i.targets ↔ i.branchTarget? = some t ∨ t ∈ i.switchTargets := by
  unfold targets branchTarget? switchTargets
  cases i.operand <;> simp [eq_comm]

/-- The token that the instruction carries. -/
def token? (i : Instruction) : Option Token :=
  match i.operand with
  | .token token => some token
  | _ => none

/-- The index of the variable that the operand names. -/
def varIndex? (i : Instruction) : Option UInt16 :=
  match i.operand with
  | .var index => some index
  | _ => none

/-- The index of the local variable that the instruction loads or stores, whether the opcode
implies it or the operand names it. -/
def localIndex? (i : Instruction) : Option UInt16 :=
  let value := i.opcode.value
  if 0x06 ≤ value ∧ value ≤ 0x09 then some (value - 0x06)
  else if 0x0A ≤ value ∧ value ≤ 0x0D then some (value - 0x0A)
  else if value = 0x11 ∨ value = 0x13 ∨ value = 0xFE0C ∨ value = 0xFE0E then i.varIndex?
  else none

/-- Whether the instruction stores to a local variable. -/
def isLocalStore (i : Instruction) : Bool :=
  i.opcode.isLocalStore

/-! ## Text -/

/-- The operand as it appears in code. A token shows as the name it resolves to, a string literal
in quotes, and a token that does not resolve as a number. -/
def operandText? (resolver : Resolver) (i : Instruction) : Option String :=
  match i.operand with
  | .none => none
  | .int8 value => some (toString value)
  | .int32 value => some (toString value)
  | .int64 value => some (toString value)
  | .float32 bits => some (Operand.codeLayout.write Decimal.single bits.toNat)
  | .float64 bits => some (Operand.codeLayout.write Decimal.double bits.toNat)
  | .var index => some (toString index)
  | .target offset => some (label offset)
  | .switch targets => some ("(" ++ ", ".intercalate (targets.map label) ++ ")")
  | .token token =>
    match resolver.name? token with
    | none => some token.text
    | some name => some (if i.opcode.operand = .token .string then Text.quote name else name)

/-- The mnemonic and the operand. -/
def text (resolver : Resolver) (i : Instruction) : String :=
  match i.operandText? resolver with
  | some operand => i.name ++ " " ++ operand
  | none => i.name

/-- The label, the mnemonic and the operand. -/
def render (resolver : Resolver) (i : Instruction) : String :=
  label i.offset ++ ": " ++ i.text resolver

/-- The fields of the instruction, for inspection. -/
def inspect (i : Instruction) : String :=
  s!"Instruction \x7b offset: {i.offset}, name: " ++ Text.quote i.name ++
    s!", size: {i.size}, operand: {i.operand.inspect} \x7d"

end Instruction

end Provenance
