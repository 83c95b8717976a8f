/-!
# Opcodes

An opcode fixes the mnemonic of an instruction, the shape of its operand, how control goes on
after it, and what it takes from and leaves on the evaluation stack.
-/

namespace Provenance

/-- What the token operand of an instruction refers to. -/
inductive TokenKind
  | type | field | method | token | string | signature
  deriving DecidableEq

/-- The name of a token kind. -/
def TokenKind.name : TokenKind → String
  | .type => "Type"
  | .field => "Field"
  | .method => "Method"
  | .token => "Token"
  | .string => "String"
  | .signature => "Signature"

/-- How the operand of an instruction is stored. -/
inductive OperandShape
  | none
  | int8
  | var8
  | branchTarget8
  | branchTarget32
  | int32
  | int64
  | float32
  | float64
  | var16
  | token (kind : TokenKind)
  | switch
  deriving DecidableEq

namespace OperandShape

/-- Number of bytes of the operand. A switch table has no fixed size. -/
def size? : OperandShape → Option Nat
  | .none => some 0
  | .int8 | .var8 | .branchTarget8 => some 1
  | .var16 => some 2
  | .branchTarget32 | .int32 | .float32 | .token _ => some 4
  | .int64 | .float64 => some 8
  | .switch => Option.none

/-- Whether the operand is the displacement of a single branch target. -/
def isBranchTarget : OperandShape → Bool
  | .branchTarget8 | .branchTarget32 => true
  | _ => false

/-- What a token operand refers to. -/
def tokenKind? : OperandShape → Option TokenKind
  | .token kind => some kind
  | _ => Option.none

/-- The name of an operand shape. -/
def name : OperandShape → String
  | .none => "None"
  | .int8 => "Int8"
  | .var8 => "Var8"
  | .branchTarget8 => "BranchTarget8"
  | .branchTarget32 => "BranchTarget32"
  | .int32 => "Int32"
  | .int64 => "Int64"
  | .float32 => "Float32"
  | .float64 => "Float64"
  | .var16 => "Var16"
  | .token kind => "Token(" ++ kind.name ++ ")"
  | .switch => "Switch"

end OperandShape

/-- How control goes on after an instruction. -/
inductive Flow
  | sequential | unconditionalBranch | conditionalBranch | call | returns | throws | breakpoint
  | modifier
  deriving DecidableEq

/-- The name of a kind of control flow. -/
def Flow.name : Flow → String
  | .sequential => "Sequential"
  | .unconditionalBranch => "UnconditionalBranch"
  | .conditionalBranch => "ConditionalBranch"
  | .call => "Call"
  | .returns => "Return"
  | .throws => "Throw"
  | .breakpoint => "Break"
  | .modifier => "Meta"

/-- What an instruction takes from the stack, top first in the last place of the name. -/
inductive PopClass
  | pop0
  | pop1
  | pop1Pop1
  | popI
  | popIPop1
  | popIPopI
  | popIPopI8
  | popIPopR4
  | popIPopR8
  | popIPopIPopI
  | popRef
  | popRefPop1
  | popRefPopI
  | popRefPopIPopI
  | popRefPopIPopI8
  | popRefPopIPopR4
  | popRefPopIPopR8
  | popRefPopIPopRef
  | popRefPopIPop1
  | varPop
  deriving DecidableEq

namespace PopClass

/-- Number of values taken, unless it depends on the callee or the method. -/
def count? : PopClass → Option Nat
  | pop0 => some 0
  | pop1 | popI | popRef => some 1
  | pop1Pop1 | popIPop1 | popIPopI | popIPopI8 | popIPopR4 | popIPopR8 | popRefPop1
  | popRefPopI => some 2
  | popIPopIPopI | popRefPopIPopI | popRefPopIPopI8 | popRefPopIPopR4 | popRefPopIPopR8
  | popRefPopIPopRef | popRefPopIPop1 => some 3
  | varPop => none

/-- The name of a pop class. -/
def name : PopClass → String
  | pop0 => "Pop0"
  | pop1 => "Pop1"
  | pop1Pop1 => "Pop1Pop1"
  | popI => "PopI"
  | popIPop1 => "PopIPop1"
  | popIPopI => "PopIPopI"
  | popIPopI8 => "PopIPopI8"
  | popIPopR4 => "PopIPopR4"
  | popIPopR8 => "PopIPopR8"
  | popIPopIPopI => "PopIPopIPopI"
  | popRef => "PopRef"
  | popRefPop1 => "PopRefPop1"
  | popRefPopI => "PopRefPopI"
  | popRefPopIPopI => "PopRefPopIPopI"
  | popRefPopIPopI8 => "PopRefPopIPopI8"
  | popRefPopIPopR4 => "PopRefPopIPopR4"
  | popRefPopIPopR8 => "PopRefPopIPopR8"
  | popRefPopIPopRef => "PopRefPopIPopRef"
  | popRefPopIPop1 => "PopRefPopIPop1"
  | varPop => "VarPop"

end PopClass

/-- What an instruction leaves on the stack. -/
inductive PushClass
  | push0
  | push1
  | push1Push1
  | pushI
  | pushI8
  | pushR4
  | pushR8
  | pushRef
  | varPush
  deriving DecidableEq

namespace PushClass

/-- Number of values left, unless it depends on the callee. -/
def count? : PushClass → Option Nat
  | push0 => some 0
  | push1 | pushI | pushI8 | pushR4 | pushR8 | pushRef => some 1
  | push1Push1 => some 2
  | varPush => none

/-- The name of a push class. -/
def name : PushClass → String
  | push0 => "Push0"
  | push1 => "Push1"
  | push1Push1 => "Push1Push1"
  | pushI => "PushI"
  | pushI8 => "PushI8"
  | pushR4 => "PushR4"
  | pushR8 => "PushR8"
  | pushRef => "PushRef"
  | varPush => "VarPush"

end PushClass

/-- An opcode of the instruction set. -/
structure OpCode where
  /-- The encoding as a number: one byte, or the escape byte and a second one. -/
  value : UInt16
  /-- The mnemonic. -/
  name : String
  operand : OperandShape
  flow : Flow
  pop : PopClass
  push : PushClass
  deriving DecidableEq

namespace OpCode

/-- The byte that announces an opcode of two bytes. -/
def escape : UInt8 := 0xFE

/-- Number of bytes of the opcode itself. -/
def size (o : OpCode) : Nat :=
  if 0xFF < o.value then 2 else 1

/-- The bytes of the opcode itself. -/
def encoding (o : OpCode) : List UInt8 :=
  if 0xFF < o.value then [(o.value >>> 8).toUInt8, o.value.toUInt8] else [o.value.toUInt8]

/-- Whether the instruction calls what its token names. -/
def isCallSite (o : OpCode) : Bool :=
  o.value = 0x28 || o.value = 0x29 || o.value = 0x6F || o.value = 0x73

/-- Whether the instruction creates an object. -/
def isNewObject (o : OpCode) : Bool :=
  o.value = 0x73

/-- Whether the instruction calls through a function pointer. -/
def isIndirectCall (o : OpCode) : Bool :=
  o.value = 0x29

/-- Whether the instruction returns from the method. -/
def isReturn (o : OpCode) : Bool :=
  o.value = 0x2A

/-- Whether the instruction branches by a table. -/
def isSwitch (o : OpCode) : Bool :=
  o.operand = .switch

/-- Whether the instruction stores to a local variable. -/
def isLocalStore (o : OpCode) : Bool :=
  (0x0A ≤ o.value && o.value ≤ 0x0D) || o.value = 0x13 || o.value = 0xFE0E

end OpCode

end Provenance
