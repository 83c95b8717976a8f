import Provenance.Text.Hex

/-!
# Labels

A place in a method body is its byte offset, and its name in every listing and message is the
label of that offset: `IL_` followed by the offset in hexadecimal, at least four digits wide.
-/

namespace Provenance

/-- The label of an offset, for instance `IL_001F`. -/
def label (offset : Nat) : String :=
  "IL_" ++ Text.hex 4 offset

end Provenance
