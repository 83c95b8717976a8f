import Provenance.Error
import Provenance.Instruction.Basic

/-!
# Stack effects

How many values an instruction takes from the evaluation stack and how many it leaves there. For
most instructions the opcode says so; a call depends on the signature of the callee, and a return
takes the value on the stack if there is one.
-/

namespace Provenance

/-- What an instruction does to the stack. -/
structure Effect where
  pops : Nat
  pushes : Nat
  deriving DecidableEq

namespace Instruction

/-- The effect of a call. Counts have 64 bits. -/
def callEffect (resolver : Resolver) (i : Instruction) : Except Error Effect :=
  match i.token? with
  | none => .error (.malformed (.missingToken i.name i.offset))
  | some token =>
    match resolver.signature? token with
    | none => .error (.unresolvedToken token)
    | some signature =>
      let this : UInt64 := if signature.popsInstance && !i.opcode.isNewObject then 1 else 0
      let pointer : UInt64 := if i.opcode.isIndirectCall then 1 else 0
      let pushes := i.opcode.push.count?.getD (if signature.returnsVoid then 0 else 1)
      .ok ⟨(signature.paramCount + this + pointer).toNat, pushes⟩

/-- The effect of an instruction on a stack that is empty or not. -/
def effect (resolver : Resolver) (isEmpty : Bool) (i : Instruction) : Except Error Effect :=
  if i.opcode.isReturn then .ok ⟨if isEmpty then 0 else 1, 0⟩
  else
    match i.opcode.pop.count?, i.opcode.push.count? with
    | some pops, some pushes => .ok ⟨pops, pushes⟩
    | _, _ =>
      if i.opcode.isCallSite then i.callEffect resolver
      else .error (.unsupportedStackBehavior i.offset i.name)

end Instruction

end Provenance
