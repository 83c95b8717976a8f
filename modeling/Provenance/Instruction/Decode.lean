import Provenance.Error
import Provenance.Instruction.Basic
import Provenance.OpCode.Table
import Provenance.Scalar

/-!
# Decoding

An instruction is an opcode of one byte, or of two after the escape byte, followed by its operand.
The operand's size follows from the opcode, except for a switch, which starts with the number of
its cases. Branch displacements count from the end of their instruction and are turned into
offsets; one that leads before the start of the body is refused.

`Instruction.decode` reads one instruction and `Body.decode` a whole method body. A failed read
says how many bytes it consumed before it stopped.
-/

namespace Provenance

/-- The end of an unsuccessful read: why, and after how many bytes. -/
structure Stop where
  error : Error
  consumed : Nat
  deriving DecidableEq

namespace Operand

/-- The offset that lies `displacement` bytes after `next`, unless it is negative. -/
def relative? (next : Nat) (displacement : Int) : Option Nat :=
  ((next : Int) + displacement).toNat?

/-- Reads displacements of four bytes each; `done` are those already read, the latest first. -/
def readDisplacements : (table : List UInt8) → (done : List Int) → List Int
  | a :: b :: c :: d :: rest, done =>
    readDisplacements rest ((ScalarKind.i32.decode [a, b, c, d]).toInt :: done)
  | _, done => done.reverse

/-- The displacements of a switch table, four bytes each. -/
def displacements (table : List UInt8) : List Int :=
  readDisplacements table []

/-- The operand of an instruction that ends at `next`, from the bytes after the opcode. There is
none if a target lies before the start of the body. -/
def decode? (shape : OperandShape) (next : Nat) (payload : List UInt8) : Option Operand :=
  match shape with
  | .none => some .none
  | .int8 => some (.int8 (ScalarKind.i8.decode payload))
  | .int32 => some (.int32 (ScalarKind.i32.decode payload))
  | .int64 => some (.int64 (ScalarKind.i64.decode payload))
  | .float32 => some (.float32 (ScalarKind.f32.decode payload))
  | .float64 => some (.float64 (ScalarKind.f64.decode payload))
  | .var8 => some (.var (ScalarKind.u8.decode payload).toUInt16)
  | .var16 => some (.var (ScalarKind.u16.decode payload))
  | .branchTarget8 => (relative? next (ScalarKind.i8.decode payload).toInt).map .target
  | .branchTarget32 => (relative? next (ScalarKind.i32.decode payload).toInt).map .target
  | .token _ => some (.token ⟨ScalarKind.u32.decode payload⟩)
  | .switch => ((displacements (payload.drop 4)).mapM (relative? next)).map .switch

end Operand

namespace Instruction

/-- Reads an opcode: the opcode and the bytes after it. -/
def decodeOpCode (offset : Nat) : List UInt8 → Except Stop (OpCode × List UInt8)
  | [] => .error ⟨.outOfBounds, 0⟩
  | first :: rest =>
    match OpCode.ofByte? first with
    | some opcode => .ok (opcode, rest)
    | none =>
      if first = OpCode.escape then
        match rest with
        | [] => .error ⟨.malformed (.truncatedOpCode offset), 1⟩
        | second :: rest =>
          match OpCode.ofEscaped? second with
          | some opcode => .ok (opcode, rest)
          | none => .error ⟨.unknownOpCode offset (0xFE00 + second.toUInt16), 2⟩
      else .error ⟨.unknownOpCode offset first.toUInt16, 1⟩

/-- The lowest number that a machine word cannot hold. -/
def wordLimit : Nat := 0x10000000000000000

/-- Reads the bytes of an operand. -/
def decodePayload (offset : Nat) (opcode : OpCode) (rest : List UInt8) :
    Except Stop (List UInt8) :=
  let truncated (consumed : Nat) : Except Stop (List UInt8) :=
    .error ⟨.malformed (.truncatedOperand opcode.name offset), consumed⟩
  match opcode.operand.size? with
  | some size =>
    match Bytes.split? size rest with
    | some (payload, _) => .ok payload
    | none => truncated opcode.size
  | none =>
    match Bytes.split? 4 rest with
    | none => .error ⟨.malformed (.truncatedSwitch offset), opcode.size⟩
    | some (count, table) =>
      let size := 4 * Bytes.ofLittleEndian count
      if wordLimit ≤ size then .error ⟨.malformed (.tableTooLarge offset), opcode.size + 4⟩
      else
        match Bytes.split? size table with
        | some (cases, _) => .ok (count ++ cases)
        | none => truncated (opcode.size + 4)

/-- Reads the instruction at the front of `bytes`, which stand at `offset` of the body. -/
def decode (offset : Nat) (bytes : List UInt8) : Except Stop Instruction := do
  let (opcode, rest) ← decodeOpCode offset bytes
  let payload ← decodePayload offset opcode rest
  let size := opcode.size + payload.length
  match Operand.decode? opcode.operand (offset + size) payload with
  | some operand => return ⟨offset, opcode, operand, opcode.encoding ++ payload⟩
  | none => throw ⟨.malformed (.targetBeforeStart opcode.name offset), size⟩

end Instruction

/-- What reading a method body from its start yields: the instructions up to the first failure,
and the failure. -/
structure Body where
  instructions : List Instruction
  failure? : Option Error
  deriving DecidableEq

namespace Body

/-- Reads instructions from `offset` on; `done` are those already read, the latest first. -/
def readFrom (offset : Nat) (bytes : List UInt8) (done : List Instruction) : Body :=
  match bytes with
  | [] => ⟨done.reverse, none⟩
  | first :: rest =>
    match Instruction.decode offset (first :: rest) with
    | .error stop => ⟨done.reverse, some stop.error⟩
    | .ok i => readFrom i.next (rest.drop (i.size - 1)) (i :: done)
termination_by bytes.length
decreasing_by simp only [List.length_drop, List.length_cons]; omega

/-- Reads a method body. -/
def read (bytes : List UInt8) : Body :=
  readFrom 0 bytes []

/-- The instructions of a method body, if all of it can be read. -/
def decode (bytes : List UInt8) : Except Error (List Instruction) :=
  let body := read bytes
  match body.failure? with
  | none => .ok body.instructions
  | some error => .error error

end Body

end Provenance
