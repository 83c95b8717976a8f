import Provenance.Error
import Provenance.OpCode.Table
import Provenance.Scalar

/-!
# Assembling

An assembler writes a method body instruction by instruction. Branches and switches name labels,
which may be defined before or after them. Their displacements are written as zeros at first, and a
fixup says where each is to stand; `finish` fills the displacements in, once every label has its
place.

An operation acts on the assembler and can fail (`Assembler.Action`). What it needs is checked
before anything is written.
-/

namespace Provenance

/-- The bytes of the operand that `mnemonic` is to be emitted with. -/
def Operand.encode (mnemonic : String) (shape : OperandShape) (operand : Option Operand) :
    Except Error (List UInt8) :=
  match shape, operand with
  | .none, Option.none => .ok []
  | .int8, some (.int8 value) => .ok (ScalarKind.i8.encode value)
  | .int32, some (.int32 value) => .ok (ScalarKind.i32.encode value)
  | .int64, some (.int64 value) => .ok (ScalarKind.i64.encode value)
  | .float32, some (.float32 bits) => .ok (ScalarKind.f32.encode bits)
  | .float64, some (.float64 bits) => .ok (ScalarKind.f64.encode bits)
  | .var16, some (.var index) => .ok (ScalarKind.u16.encode index)
  | .var8, some (.var index) =>
    if index < 0x100 then .ok (ScalarKind.u8.encode index.toUInt8)
    else .error (.malformed (.indexTooWide index mnemonic))
  | .token _, some (.token t) => .ok (ScalarKind.u32.encode t.value)
  | shape, operand => .error (.malformed (.operandMismatch operand mnemonic shape))

namespace Assembler

/-- A displacement of a branch that is to be filled in. -/
structure Fixup where
  /-- The label that the branch names. -/
  name : String
  /-- Where the displacement stands. -/
  position : Nat
  /-- The number of its bytes, one or four. The instruction ends with them. -/
  width : Nat
  deriving DecidableEq

/-- The displacements of a switch that are to be filled in. -/
structure TableFixup where
  /-- The labels of the cases. -/
  names : List String
  /-- Where the first displacement stands. -/
  position : Nat
  /-- Where the instruction ends. -/
  stop : Nat
  deriving DecidableEq

end Assembler

/-- A method body under construction. -/
structure Assembler where
  /-- What has been written. -/
  code : Array UInt8 := #[]
  /-- The labels and their offsets, the latest first. -/
  labels : List (String × Nat) := []
  /-- The branches in the order in which they were emitted. -/
  fixups : Array Assembler.Fixup := #[]
  /-- The switches in the order in which they were emitted. -/
  tables : Array Assembler.TableFixup := #[]
  deriving DecidableEq

namespace Assembler

/-- The assembler that has emitted nothing. -/
def empty : Assembler := {}

/-- The number of bytes emitted, which is where the next instruction starts. -/
def position (a : Assembler) : Nat :=
  a.code.size

/-- The offset of a label. -/
def offset? (a : Assembler) (name : String) : Option Nat :=
  (a.labels.find? (·.1 = name)).map (·.2)

/-! ## Writing instructions -/

/-- An instruction that is to be written. -/
inductive Item
  /-- An instruction whose operand is known. -/
  | code (opcode : OpCode) (payload : List UInt8)
  /-- A branch to a label. -/
  | branch (opcode : OpCode) (name : String)
  /-- A switch over labels. -/
  | table (opcode : OpCode) (names : List String)
  deriving DecidableEq

/-- Number of bytes of the displacement of a branch. -/
def fieldWidth (opcode : OpCode) : Nat :=
  if opcode.operand = .branchTarget8 then 1 else 4

/-- Bytes that hold the place of a displacement. -/
def zeros (width : Nat) : List UInt8 :=
  List.replicate width 0

/-- Writes an instruction, with zeros for the displacements. -/
def append (a : Assembler) : Item → Assembler
  | .code opcode payload => { a with code := a.code ++ opcode.encoding ++ payload }
  | .branch opcode name =>
    let code := a.code ++ opcode.encoding
    let width := fieldWidth opcode
    { a with
      code := code ++ zeros width
      fixups := a.fixups.push ⟨name, code.size, width⟩ }
  | .table opcode names =>
    let head := a.code ++ opcode.encoding ++ ScalarKind.u32.encode (UInt32.ofNat names.length)
    let code := head ++ zeros (4 * names.length)
    { a with code, tables := a.tables.push ⟨names, head.size, code.size⟩ }

/-- What an operation does to an assembler. -/
abbrev Action := EStateM Error Assembler Unit

/-- The opcode with a mnemonic. -/
def lookup (mnemonic : String) : Except Error OpCode :=
  match OpCode.ofName? mnemonic with
  | some opcode => .ok opcode
  | none => .error (.invalidMnemonic mnemonic)

/-- Emits an instruction with an operand that is not a label. -/
def emit (mnemonic : String) (operand : Option Operand) : Action := do
  let opcode ← ofExcept (lookup mnemonic)
  let payload ← ofExcept (Operand.encode mnemonic opcode.operand operand)
  modify (·.append (.code opcode payload))

/-- Emits an instruction with a token. -/
def emitToken (mnemonic : String) (token : Token) : Action :=
  emit mnemonic (some (.token token))

/-- The mnemonic and the operand of the shortest instruction that loads an integer constant. -/
def constantForm (value : Int32) : String × Option Operand :=
  if value = -1 then ("ldc.i4.m1", none)
  else if 0 ≤ value ∧ value ≤ 8 then (s!"ldc.i4.{value}", none)
  else if -128 ≤ value ∧ value ≤ 127 then ("ldc.i4.s", some (.int8 value.toInt8))
  else ("ldc.i4", some (.int32 value))

/-- Emits the shortest instruction that loads an integer constant. -/
def emitConstant (value : Int32) : Action :=
  emit (constantForm value).1 (constantForm value).2

/-- The mnemonic and the operand of the shortest instruction of a family that accesses a local
variable. -/
def localForm (family : String) (index : UInt16) : String × Option Operand :=
  if index ≤ 3 then (s!"{family}.{index}", none)
  else if index ≤ 255 then (s!"{family}.s", some (.var index))
  else (family, some (.var index))

/-- Emits the shortest instruction of a family that accesses a local variable. -/
def emitLocal (family : String) (index : UInt16) : Action :=
  emit (localForm family index).1 (localForm family index).2

/-- Emits the shortest instruction that loads a local variable. -/
def emitLoad (index : UInt16) : Action :=
  emitLocal "ldloc" index

/-- Emits the shortest instruction that stores to a local variable. -/
def emitStore (index : UInt16) : Action :=
  emitLocal "stloc" index

/-- Whether an opcode branches to a single target. -/
def isBranch (opcode : OpCode) : Bool :=
  (opcode.flow = .conditionalBranch || opcode.flow = .unconditionalBranch) &&
    opcode.operand.isBranchTarget

/-- Emits a branch to a label. -/
def emitBranch (mnemonic name : String) : Action := do
  let opcode ← ofExcept (lookup mnemonic)
  if isBranch opcode then modify (·.append (.branch opcode name))
  else throw (.invalidBranch (.notABranch mnemonic))

/-- Emits a switch over labels, of which there has to be one. -/
def emitSwitch (names : List String) : Action := do
  if names.isEmpty then throw (.invalidBranch .emptySwitch)
  else if names.length < 0x100000000 then
    let opcode ← ofExcept (lookup "switch")
    modify (·.append (.table opcode names))
  else throw (.malformed .tooManyCases)

/-- Gives the current position a name. -/
def define (name : String) : Action := do
  let a ← get
  if (a.offset? name).isSome then throw (.duplicateLabel name)
  else set { a with labels := (name, a.position) :: a.labels }

/-- An operation on an assembler. -/
inductive Operation
  | emit (mnemonic : String) (operand : Option Operand)
  | emitToken (mnemonic : String) (token : Token)
  | emitConstant (value : Int32)
  | emitLoad (index : UInt16)
  | emitStore (index : UInt16)
  | emitBranch (mnemonic name : String)
  | emitSwitch (names : List String)
  | define (name : String)
  deriving DecidableEq

/-- What an operation does. -/
def Operation.perform : Operation → Action
  | .emit mnemonic operand => Assembler.emit mnemonic operand
  | .emitToken mnemonic token => Assembler.emitToken mnemonic token
  | .emitConstant value => Assembler.emitConstant value
  | .emitLoad index => Assembler.emitLoad index
  | .emitStore index => Assembler.emitStore index
  | .emitBranch mnemonic name => Assembler.emitBranch mnemonic name
  | .emitSwitch names => Assembler.emitSwitch names
  | .define name => Assembler.define name

/-! ## Filling in displacements -/

/-- How far a label is from the end of an instruction. -/
def displacement (a : Assembler) (stop : Nat) (name : String) : Except Error Int :=
  match a.offset? name with
  | none => .error (.undefinedLabel name)
  | some target =>
    let d := (target : Int) - stop
    if -0x80000000 ≤ d ∧ d < 0x80000000 then .ok d else .error (.invalidBranch (.tooFar name))

/-- Overwrites the bytes from `position` on. -/
def patch (code : Array UInt8) (position : Nat) : List UInt8 → Array UInt8
  | [] => code
  | byte :: rest => patch (code.setIfInBounds position byte) (position + 1) rest

/-- Fills in the displacement of a branch. -/
def fixBranch (a : Assembler) (code : Array UInt8) (f : Fixup) : Except Error (Array UInt8) := do
  let d ← a.displacement (f.position + f.width) f.name
  if f.width = 1 then
    if -0x80 ≤ d ∧ d < 0x80 then return patch code f.position (ScalarKind.i8.encode (Int8.ofInt d))
    else throw (.invalidBranch (.tooFarForShort d f.name))
  else return patch code f.position (ScalarKind.i32.encode (Int32.ofInt d))

/-- Fills in the displacements of a switch that ends at `stop`, from `position` on. -/
def fixCases (a : Assembler) (stop position : Nat) (code : Array UInt8) :
    (names : List String) → Except Error (Array UInt8)
  | [] => .ok code
  | name :: rest => do
    let d ← a.displacement stop name
    let code := patch code position (ScalarKind.i32.encode (Int32.ofInt d))
    a.fixCases stop (position + 4) code rest

/-- Fills in the displacements of a switch. -/
def fixTable (a : Assembler) (code : Array UInt8) (f : TableFixup) : Except Error (Array UInt8) :=
  a.fixCases f.stop f.position code f.names

/-- The finished method body. Branches are resolved before switches, so that of several faults the
first one of a branch is reported. -/
def finish (a : Assembler) : Except Error (List UInt8) := do
  let code ← a.fixups.foldlM a.fixBranch a.code
  let code ← a.tables.foldlM a.fixTable code
  return code.toList

end Assembler

end Provenance
