import Provenance.Decimal.Layout
import Provenance.Label
import Provenance.Token

/-!
# Operands

The value that an instruction carries. Floating-point operands are bit patterns; branch and switch
targets are offsets in the method body, not displacements.
-/

namespace Provenance

/-- The operand of an instruction. -/
inductive Operand
  | none
  | int8 (value : Int8)
  | int32 (value : Int32)
  | int64 (value : Int64)
  | float32 (bits : UInt32)
  | float64 (bits : UInt64)
  | var (index : UInt16)
  | target (offset : Nat)
  | token (token : Token)
  | switch (targets : List Nat)
  deriving DecidableEq

namespace Operand

/-- In code, numbers are written positionally and integers without a point. -/
def codeLayout : Decimal.Layout := ⟨false, Option.none⟩

/-- For inspection, integers keep their point, and numbers below a ten-thousandth or from ten to
the sixteenth on have an exponent. -/
def inspectLayout : Decimal.Layout := ⟨true, some (-3, 16)⟩

/-- The operand with its constructor, for messages and inspection. -/
def inspect : Operand → String
  | .none => "None"
  | .int8 value => s!"Int8({value})"
  | .int32 value => s!"Int32({value})"
  | .int64 value => s!"Int64({value})"
  | .float32 bits => s!"Float32({inspectLayout.write Decimal.single bits.toNat})"
  | .float64 bits => s!"Float64({inspectLayout.write Decimal.double bits.toNat})"
  | .var index => s!"Var({index})"
  | .target offset => s!"Target({offset})"
  | .token t => s!"Token({t.inspect})"
  | .switch targets => "Switch([" ++ ", ".intercalate (targets.map toString) ++ "])"

/-- An operand that may be absent, for messages. -/
def inspectOptional : Option Operand → String
  | Option.none => "None"
  | some operand => s!"Some({operand.inspect})"

end Operand

end Provenance
