import Provenance.OpCode.Basic

/-!
# The opcode table

Every opcode of the instruction set, in ascending order of value. Opcodes of one byte and opcodes
behind the escape byte are kept apart, because reading knows which of the two it looks for.
-/

namespace Provenance.OpCode

/-- One row of the table. -/
def op (value : UInt16) (name : String) (operand : OperandShape) (flow : Flow) (pop : PopClass)
    (push : PushClass) : OpCode :=
  ⟨value, name, operand, flow, pop, push⟩

/-- The opcodes of one byte. -/
def oneByte : List OpCode :=
  [ op 0x00 "nop" .none .sequential .pop0 .push0,
    op 0x01 "break" .none .breakpoint .pop0 .push0,
    op 0x02 "ldarg.0" .none .sequential .pop0 .push1,
    op 0x03 "ldarg.1" .none .sequential .pop0 .push1,
    op 0x04 "ldarg.2" .none .sequential .pop0 .push1,
    op 0x05 "ldarg.3" .none .sequential .pop0 .push1,
    op 0x06 "ldloc.0" .none .sequential .pop0 .push1,
    op 0x07 "ldloc.1" .none .sequential .pop0 .push1,
    op 0x08 "ldloc.2" .none .sequential .pop0 .push1,
    op 0x09 "ldloc.3" .none .sequential .pop0 .push1,
    op 0x0A "stloc.0" .none .sequential .pop1 .push0,
    op 0x0B "stloc.1" .none .sequential .pop1 .push0,
    op 0x0C "stloc.2" .none .sequential .pop1 .push0,
    op 0x0D "stloc.3" .none .sequential .pop1 .push0,
    op 0x0E "ldarg.s" .var8 .sequential .pop0 .push1,
    op 0x0F "ldarga.s" .var8 .sequential .pop0 .pushI,
    op 0x10 "starg.s" .var8 .sequential .pop1 .push0,
    op 0x11 "ldloc.s" .var8 .sequential .pop0 .push1,
    op 0x12 "ldloca.s" .var8 .sequential .pop0 .pushI,
    op 0x13 "stloc.s" .var8 .sequential .pop1 .push0,
    op 0x14 "ldnull" .none .sequential .pop0 .pushRef,
    op 0x15 "ldc.i4.m1" .none .sequential .pop0 .pushI,
    op 0x16 "ldc.i4.0" .none .sequential .pop0 .pushI,
    op 0x17 "ldc.i4.1" .none .sequential .pop0 .pushI,
    op 0x18 "ldc.i4.2" .none .sequential .pop0 .pushI,
    op 0x19 "ldc.i4.3" .none .sequential .pop0 .pushI,
    op 0x1A "ldc.i4.4" .none .sequential .pop0 .pushI,
    op 0x1B "ldc.i4.5" .none .sequential .pop0 .pushI,
    op 0x1C "ldc.i4.6" .none .sequential .pop0 .pushI,
    op 0x1D "ldc.i4.7" .none .sequential .pop0 .pushI,
    op 0x1E "ldc.i4.8" .none .sequential .pop0 .pushI,
    op 0x1F "ldc.i4.s" .int8 .sequential .pop0 .pushI,
    op 0x20 "ldc.i4" .int32 .sequential .pop0 .pushI,
    op 0x21 "ldc.i8" .int64 .sequential .pop0 .pushI8,
    op 0x22 "ldc.r4" .float32 .sequential .pop0 .pushR4,
    op 0x23 "ldc.r8" .float64 .sequential .pop0 .pushR8,
    op 0x25 "dup" .none .sequential .pop1 .push1Push1,
    op 0x26 "pop" .none .sequential .pop1 .push0,
    op 0x27 "jmp" (.token .method) .call .pop0 .push0,
    op 0x28 "call" (.token .method) .call .varPop .varPush,
    op 0x29 "calli" (.token .signature) .call .varPop .varPush,
    op 0x2A "ret" .none .returns .varPop .push0,
    op 0x2B "br.s" .branchTarget8 .unconditionalBranch .pop0 .push0,
    op 0x2C "brfalse.s" .branchTarget8 .conditionalBranch .popI .push0,
    op 0x2D "brtrue.s" .branchTarget8 .conditionalBranch .popI .push0,
    op 0x2E "beq.s" .branchTarget8 .conditionalBranch .pop1Pop1 .push0,
    op 0x2F "bge.s" .branchTarget8 .conditionalBranch .pop1Pop1 .push0,
    op 0x30 "bgt.s" .branchTarget8 .conditionalBranch .pop1Pop1 .push0,
    op 0x31 "ble.s" .branchTarget8 .conditionalBranch .pop1Pop1 .push0,
    op 0x32 "blt.s" .branchTarget8 .conditionalBranch .pop1Pop1 .push0,
    op 0x33 "bne.un.s" .branchTarget8 .conditionalBranch .pop1Pop1 .push0,
    op 0x34 "bge.un.s" .branchTarget8 .conditionalBranch .pop1Pop1 .push0,
    op 0x35 "bgt.un.s" .branchTarget8 .conditionalBranch .pop1Pop1 .push0,
    op 0x36 "ble.un.s" .branchTarget8 .conditionalBranch .pop1Pop1 .push0,
    op 0x37 "blt.un.s" .branchTarget8 .conditionalBranch .pop1Pop1 .push0,
    op 0x38 "br" .branchTarget32 .unconditionalBranch .pop0 .push0,
    op 0x39 "brfalse" .branchTarget32 .conditionalBranch .popI .push0,
    op 0x3A "brtrue" .branchTarget32 .conditionalBranch .popI .push0,
    op 0x3B "beq" .branchTarget32 .conditionalBranch .pop1Pop1 .push0,
    op 0x3C "bge" .branchTarget32 .conditionalBranch .pop1Pop1 .push0,
    op 0x3D "bgt" .branchTarget32 .conditionalBranch .pop1Pop1 .push0,
    op 0x3E "ble" .branchTarget32 .conditionalBranch .pop1Pop1 .push0,
    op 0x3F "blt" .branchTarget32 .conditionalBranch .pop1Pop1 .push0,
    op 0x40 "bne.un" .branchTarget32 .conditionalBranch .pop1Pop1 .push0,
    op 0x41 "bge.un" .branchTarget32 .conditionalBranch .pop1Pop1 .push0,
    op 0x42 "bgt.un" .branchTarget32 .conditionalBranch .pop1Pop1 .push0,
    op 0x43 "ble.un" .branchTarget32 .conditionalBranch .pop1Pop1 .push0,
    op 0x44 "blt.un" .branchTarget32 .conditionalBranch .pop1Pop1 .push0,
    op 0x45 "switch" .switch .conditionalBranch .popI .push0,
    op 0x46 "ldind.i1" .none .sequential .popI .pushI,
    op 0x47 "ldind.u1" .none .sequential .popI .pushI,
    op 0x48 "ldind.i2" .none .sequential .popI .pushI,
    op 0x49 "ldind.u2" .none .sequential .popI .pushI,
    op 0x4A "ldind.i4" .none .sequential .popI .pushI,
    op 0x4B "ldind.u4" .none .sequential .popI .pushI,
    op 0x4C "ldind.i8" .none .sequential .popI .pushI8,
    op 0x4D "ldind.i" .none .sequential .popI .pushI,
    op 0x4E "ldind.r4" .none .sequential .popI .pushR4,
    op 0x4F "ldind.r8" .none .sequential .popI .pushR8,
    op 0x50 "ldind.ref" .none .sequential .popI .pushRef,
    op 0x51 "stind.ref" .none .sequential .popIPopI .push0,
    op 0x52 "stind.i1" .none .sequential .popIPopI .push0,
    op 0x53 "stind.i2" .none .sequential .popIPopI .push0,
    op 0x54 "stind.i4" .none .sequential .popIPopI .push0,
    op 0x55 "stind.i8" .none .sequential .popIPopI8 .push0,
    op 0x56 "stind.r4" .none .sequential .popIPopR4 .push0,
    op 0x57 "stind.r8" .none .sequential .popIPopR8 .push0,
    op 0x58 "add" .none .sequential .pop1Pop1 .push1,
    op 0x59 "sub" .none .sequential .pop1Pop1 .push1,
    op 0x5A "mul" .none .sequential .pop1Pop1 .push1,
    op 0x5B "div" .none .sequential .pop1Pop1 .push1,
    op 0x5C "div.un" .none .sequential .pop1Pop1 .push1,
    op 0x5D "rem" .none .sequential .pop1Pop1 .push1,
    op 0x5E "rem.un" .none .sequential .pop1Pop1 .push1,
    op 0x5F "and" .none .sequential .pop1Pop1 .push1,
    op 0x60 "or" .none .sequential .pop1Pop1 .push1,
    op 0x61 "xor" .none .sequential .pop1Pop1 .push1,
    op 0x62 "shl" .none .sequential .pop1Pop1 .push1,
    op 0x63 "shr" .none .sequential .pop1Pop1 .push1,
    op 0x64 "shr.un" .none .sequential .pop1Pop1 .push1,
    op 0x65 "neg" .none .sequential .pop1 .push1,
    op 0x66 "not" .none .sequential .pop1 .push1,
    op 0x67 "conv.i1" .none .sequential .pop1 .pushI,
    op 0x68 "conv.i2" .none .sequential .pop1 .pushI,
    op 0x69 "conv.i4" .none .sequential .pop1 .pushI,
    op 0x6A "conv.i8" .none .sequential .pop1 .pushI8,
    op 0x6B "conv.r4" .none .sequential .pop1 .pushR4,
    op 0x6C "conv.r8" .none .sequential .pop1 .pushR8,
    op 0x6D "conv.u4" .none .sequential .pop1 .pushI,
    op 0x6E "conv.u8" .none .sequential .pop1 .pushI8,
    op 0x6F "callvirt" (.token .method) .call .varPop .varPush,
    op 0x70 "cpobj" (.token .type) .sequential .popIPopI .push0,
    op 0x71 "ldobj" (.token .type) .sequential .popI .push1,
    op 0x72 "ldstr" (.token .string) .sequential .pop0 .pushRef,
    op 0x73 "newobj" (.token .method) .call .varPop .pushRef,
    op 0x74 "castclass" (.token .type) .sequential .popRef .pushRef,
    op 0x75 "isinst" (.token .type) .sequential .popRef .pushI,
    op 0x76 "conv.r.un" .none .sequential .pop1 .pushR8,
    op 0x79 "unbox" (.token .type) .sequential .popRef .pushI,
    op 0x7A "throw" .none .throws .popRef .push0,
    op 0x7B "ldfld" (.token .field) .sequential .popRef .push1,
    op 0x7C "ldflda" (.token .field) .sequential .popRef .pushI,
    op 0x7D "stfld" (.token .field) .sequential .popRefPop1 .push0,
    op 0x7E "ldsfld" (.token .field) .sequential .pop0 .push1,
    op 0x7F "ldsflda" (.token .field) .sequential .pop0 .pushI,
    op 0x80 "stsfld" (.token .field) .sequential .pop1 .push0,
    op 0x81 "stobj" (.token .type) .sequential .popIPop1 .push0,
    op 0x82 "conv.ovf.i1.un" .none .sequential .pop1 .pushI,
    op 0x83 "conv.ovf.i2.un" .none .sequential .pop1 .pushI,
    op 0x84 "conv.ovf.i4.un" .none .sequential .pop1 .pushI,
    op 0x85 "conv.ovf.i8.un" .none .sequential .pop1 .pushI8,
    op 0x86 "conv.ovf.u1.un" .none .sequential .pop1 .pushI,
    op 0x87 "conv.ovf.u2.un" .none .sequential .pop1 .pushI,
    op 0x88 "conv.ovf.u4.un" .none .sequential .pop1 .pushI,
    op 0x89 "conv.ovf.u8.un" .none .sequential .pop1 .pushI8,
    op 0x8A "conv.ovf.i.un" .none .sequential .pop1 .pushI,
    op 0x8B "conv.ovf.u.un" .none .sequential .pop1 .pushI,
    op 0x8C "box" (.token .type) .sequential .pop1 .pushRef,
    op 0x8D "newarr" (.token .type) .sequential .popI .pushRef,
    op 0x8E "ldlen" .none .sequential .popRef .pushI,
    op 0x8F "ldelema" (.token .type) .sequential .popRefPopI .pushI,
    op 0x90 "ldelem.i1" .none .sequential .popRefPopI .pushI,
    op 0x91 "ldelem.u1" .none .sequential .popRefPopI .pushI,
    op 0x92 "ldelem.i2" .none .sequential .popRefPopI .pushI,
    op 0x93 "ldelem.u2" .none .sequential .popRefPopI .pushI,
    op 0x94 "ldelem.i4" .none .sequential .popRefPopI .pushI,
    op 0x95 "ldelem.u4" .none .sequential .popRefPopI .pushI,
    op 0x96 "ldelem.i8" .none .sequential .popRefPopI .pushI8,
    op 0x97 "ldelem.i" .none .sequential .popRefPopI .pushI,
    op 0x98 "ldelem.r4" .none .sequential .popRefPopI .pushR4,
    op 0x99 "ldelem.r8" .none .sequential .popRefPopI .pushR8,
    op 0x9A "ldelem.ref" .none .sequential .popRefPopI .pushRef,
    op 0x9B "stelem.i" .none .sequential .popRefPopIPopI .push0,
    op 0x9C "stelem.i1" .none .sequential .popRefPopIPopI .push0,
    op 0x9D "stelem.i2" .none .sequential .popRefPopIPopI .push0,
    op 0x9E "stelem.i4" .none .sequential .popRefPopIPopI .push0,
    op 0x9F "stelem.i8" .none .sequential .popRefPopIPopI8 .push0,
    op 0xA0 "stelem.r4" .none .sequential .popRefPopIPopR4 .push0,
    op 0xA1 "stelem.r8" .none .sequential .popRefPopIPopR8 .push0,
    op 0xA2 "stelem.ref" .none .sequential .popRefPopIPopRef .push0,
    op 0xA3 "ldelem" (.token .type) .sequential .popRefPopI .push1,
    op 0xA4 "stelem" (.token .type) .sequential .popRefPopIPop1 .push0,
    op 0xA5 "unbox.any" (.token .type) .sequential .popRef .push1,
    op 0xB3 "conv.ovf.i1" .none .sequential .pop1 .pushI,
    op 0xB4 "conv.ovf.u1" .none .sequential .pop1 .pushI,
    op 0xB5 "conv.ovf.i2" .none .sequential .pop1 .pushI,
    op 0xB6 "conv.ovf.u2" .none .sequential .pop1 .pushI,
    op 0xB7 "conv.ovf.i4" .none .sequential .pop1 .pushI,
    op 0xB8 "conv.ovf.u4" .none .sequential .pop1 .pushI,
    op 0xB9 "conv.ovf.i8" .none .sequential .pop1 .pushI8,
    op 0xBA "conv.ovf.u8" .none .sequential .pop1 .pushI8,
    op 0xC2 "refanyval" (.token .type) .sequential .pop1 .pushI,
    op 0xC3 "ckfinite" .none .sequential .pop1 .pushR8,
    op 0xC6 "mkrefany" (.token .type) .sequential .popI .push1,
    op 0xD0 "ldtoken" (.token .token) .sequential .pop0 .pushI,
    op 0xD1 "conv.u2" .none .sequential .pop1 .pushI,
    op 0xD2 "conv.u1" .none .sequential .pop1 .pushI,
    op 0xD3 "conv.i" .none .sequential .pop1 .pushI,
    op 0xD4 "conv.ovf.i" .none .sequential .pop1 .pushI,
    op 0xD5 "conv.ovf.u" .none .sequential .pop1 .pushI,
    op 0xD6 "add.ovf" .none .sequential .pop1Pop1 .push1,
    op 0xD7 "add.ovf.un" .none .sequential .pop1Pop1 .push1,
    op 0xD8 "mul.ovf" .none .sequential .pop1Pop1 .push1,
    op 0xD9 "mul.ovf.un" .none .sequential .pop1Pop1 .push1,
    op 0xDA "sub.ovf" .none .sequential .pop1Pop1 .push1,
    op 0xDB "sub.ovf.un" .none .sequential .pop1Pop1 .push1,
    op 0xDC "endfinally" .none .returns .pop0 .push0,
    op 0xDD "leave" .branchTarget32 .unconditionalBranch .pop0 .push0,
    op 0xDE "leave.s" .branchTarget8 .unconditionalBranch .pop0 .push0,
    op 0xDF "stind.i" .none .sequential .popIPopI .push0,
    op 0xE0 "conv.u" .none .sequential .pop1 .pushI ]

/-- The opcodes behind the escape byte. -/
def twoByte : List OpCode :=
  [ op 0xFE00 "arglist" .none .sequential .pop0 .pushI,
    op 0xFE01 "ceq" .none .sequential .pop1Pop1 .pushI,
    op 0xFE02 "cgt" .none .sequential .pop1Pop1 .pushI,
    op 0xFE03 "cgt.un" .none .sequential .pop1Pop1 .pushI,
    op 0xFE04 "clt" .none .sequential .pop1Pop1 .pushI,
    op 0xFE05 "clt.un" .none .sequential .pop1Pop1 .pushI,
    op 0xFE06 "ldftn" (.token .method) .sequential .pop0 .pushI,
    op 0xFE07 "ldvirtftn" (.token .method) .sequential .popRef .pushI,
    op 0xFE09 "ldarg" .var16 .sequential .pop0 .push1,
    op 0xFE0A "ldarga" .var16 .sequential .pop0 .pushI,
    op 0xFE0B "starg" .var16 .sequential .pop1 .push0,
    op 0xFE0C "ldloc" .var16 .sequential .pop0 .push1,
    op 0xFE0D "ldloca" .var16 .sequential .pop0 .pushI,
    op 0xFE0E "stloc" .var16 .sequential .pop1 .push0,
    op 0xFE0F "localloc" .none .sequential .popI .pushI,
    op 0xFE11 "endfilter" .none .returns .popI .push0,
    op 0xFE12 "unaligned." .int8 .modifier .pop0 .push0,
    op 0xFE13 "volatile." .none .modifier .pop0 .push0,
    op 0xFE14 "tail." .none .modifier .pop0 .push0,
    op 0xFE15 "initobj" (.token .type) .sequential .popI .push0,
    op 0xFE16 "constrained." (.token .type) .modifier .pop0 .push0,
    op 0xFE17 "cpblk" .none .sequential .popIPopIPopI .push0,
    op 0xFE18 "initblk" .none .sequential .popIPopIPopI .push0,
    op 0xFE19 "no." .int8 .modifier .pop0 .push0,
    op 0xFE1A "rethrow" .none .throws .pop0 .push0,
    op 0xFE1C "sizeof" (.token .type) .sequential .pop0 .pushI,
    op 0xFE1D "refanytype" .none .sequential .pop1 .pushI,
    op 0xFE1E "readonly." .none .modifier .pop0 .push0 ]

/-- Every opcode. -/
def all : List OpCode :=
  oneByte ++ twoByte

/-- The opcode that a single byte encodes. -/
def ofByte? (byte : UInt8) : Option OpCode :=
  oneByte.find? (·.value = byte.toUInt16)

/-- The opcode that the escape byte and `second` encode. -/
def ofEscaped? (second : UInt8) : Option OpCode :=
  twoByte.find? (·.value = 0xFE00 + second.toUInt16)

/-- The opcode that two bytes encode; the first has to be the escape byte. -/
def ofPair? (first second : UInt8) : Option OpCode :=
  if first = escape then ofEscaped? second else none

/-- The opcode with this mnemonic. -/
def ofName? (name : String) : Option OpCode :=
  all.find? (·.name = name)

end Provenance.OpCode
