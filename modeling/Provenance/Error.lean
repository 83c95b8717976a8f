import Provenance.Block.Entry
import Provenance.OpCode.Basic
import Provenance.Operand
import Provenance.Path.Basic

/-!
# Errors

Everything that can go wrong when a method body is read, written or analysed, as causes. The
wording of all messages is in `Error.message` and the functions it uses.
-/

namespace Provenance

/-- Why a method body, or a request about one, makes no sense. -/
inductive Malformation
  /-- The body ends after the escape byte of an opcode. -/
  | truncatedOpCode (offset : Nat)
  /-- The body ends within the case count of a switch. -/
  | truncatedSwitch (offset : Nat)
  /-- The table of a switch takes more bytes than a machine word can count. -/
  | tableTooLarge (offset : Nat)
  /-- The body ends within an operand. -/
  | truncatedOperand (mnemonic : String) (offset : Nat)
  /-- A branch goes to a negative offset. -/
  | targetBeforeStart (mnemonic : String) (offset : Nat)
  /-- An instruction was to be emitted with an operand of the wrong shape. -/
  | operandMismatch (operand : Option Operand) (mnemonic : String) (expected : OperandShape)
  /-- A variable's index does not fit the one-byte form of an instruction. -/
  | indexTooWide (index : UInt16) (mnemonic : String)
  /-- A switch has more cases than its count can say. -/
  | tooManyCases
  /-- No instruction starts where the one before ends. -/
  | gap (offset : Nat)
  /-- The instructions do not end where the body does. -/
  | wrongLength (stop length : Nat)
  /-- Control is to enter where no instruction starts. -/
  | notInstructionStart (offset : Nat) (entry : Entry)
  /-- A block does not stop where the next one starts or, if it is the last one, the body ends. -/
  | openBlock (start boundary : Nat)
  /-- No block is the method's entry. -/
  | noMethodEntry
  /-- A branch goes where no block starts. -/
  | strayBranch (source target : Nat)
  /-- A path visits an offset where no block starts. -/
  | strayPath (path : Path) (start : Nat)
  /-- A call does not name its callee. -/
  | missingToken (mnemonic : String) (offset : Nat)
  deriving DecidableEq

namespace Malformation

/-- The message of a malformation. -/
def message : Malformation → String
  | .truncatedOpCode offset => "Truncated two-byte opcode at " ++ label offset
  | .truncatedSwitch offset => "Truncated switch table at " ++ label offset
  | .tableTooLarge offset => "Switch table too large at " ++ label offset
  | .truncatedOperand mnemonic offset => s!"Truncated operand for '{mnemonic}' at {label offset}"
  | .targetBeforeStart mnemonic offset =>
    s!"Branch target of '{mnemonic}' at {label offset} lies before the method start"
  | .operandMismatch operand mnemonic expected =>
    s!"Operand {Operand.inspectOptional operand} does not match '{mnemonic}' " ++
      s!"(expects {expected.name})"
  | .indexTooWide index mnemonic => s!"Index {index} does not fit the short form of '{mnemonic}'"
  | .tooManyCases => "Too many switch targets"
  | .gap offset => "Instructions do not tile the buffer at " ++ label offset
  | .wrongLength stop length =>
    s!"Instructions end at {label stop} but the buffer is {length} bytes long"
  | .notInstructionStart offset entry =>
    s!"{label offset} does not start an instruction (from {entry.text})"
  | .openBlock start boundary =>
    s!"Run {label start} does not end at the next boundary {label boundary}"
  | .noMethodEntry => "No run is marked as method entry"
  | .strayBranch source target =>
    s!"Branch at {label source} targets {label target} which does not start a run"
  | .strayPath path start =>
    s!"Path {path.key} visits {label start} which does not start a run"
  | .missingToken mnemonic offset => s!"{mnemonic} at {label offset} carries no token"

end Malformation

/-- Why a branch cannot be emitted or resolved. -/
inductive BranchFault
  /-- The instruction has no branch target. -/
  | notABranch (mnemonic : String)
  /-- A switch without cases. -/
  | emptySwitch
  /-- The target is further away than 32 bits reach. -/
  | tooFar (name : String)
  /-- The target is further away than the one-byte form reaches. -/
  | tooFarForShort (displacement : Int) (name : String)
  deriving DecidableEq

/-- The message of a branch fault. -/
def BranchFault.message : BranchFault → String
  | .notABranch mnemonic => s!"instruction '{mnemonic}' is not a branch instruction"
  | .emptySwitch => "switch must have at least one target"
  | .tooFar name => s!"displacement to '{name}' exceeds i32"
  | .tooFarForShort displacement name =>
    s!"displacement {displacement} to '{name}' does not fit a short branch"

/-- Why an operation failed. -/
inductive Error
  /-- The bytes at an offset encode no opcode. -/
  | unknownOpCode (offset : Nat) (code : UInt16)
  | malformed (cause : Malformation)
  /-- A read would go beyond the end of the data. -/
  | outOfBounds
  /-- There is nothing to work on. -/
  | empty
  /-- What an instruction does to the stack is not known. -/
  | unsupportedStackBehavior (offset : Nat) (mnemonic : String)
  | invalidMnemonic (mnemonic : String)
  | invalidBranch (fault : BranchFault)
  | undefinedLabel (name : String)
  | duplicateLabel (name : String)
  /-- The signature of a callee is not known. -/
  | unresolvedToken (token : Token)
  deriving DecidableEq

/-- The message of an error. -/
def Error.message : Error → String
  | .unknownOpCode offset code => s!"Unknown opcode 0x{Text.hex 4 code.toNat} at {label offset}"
  | .malformed cause => cause.message
  | .outOfBounds => "Out of Bound read would have occurred!"
  | .empty => "Provided input was empty"
  | .unsupportedStackBehavior offset mnemonic =>
    s!"Unsupported stack behavior for '{mnemonic}' at {label offset}"
  | .invalidMnemonic mnemonic => "Invalid mnemonic: " ++ mnemonic
  | .invalidBranch fault => "Invalid branch: " ++ fault.message
  | .undefinedLabel name => "Undefined label: " ++ name
  | .duplicateLabel name => "Duplicate label: " ++ name
  | .unresolvedToken token => "Unable to resolve the signature of " ++ token.text

end Provenance
