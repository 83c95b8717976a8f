import Provenance.Label

/-!
# Entries

Control reaches the first instruction of a basic block for one of a few reasons: the method starts
there, an exception clause does, a branch goes there, or the conditional branch just before it is
not taken. Reasons are ordered as listed here, reasons of one kind by their number.
-/

namespace Provenance

/-- A reason why control can reach an offset. -/
inductive Entry
  /-- The method starts here. -/
  | method
  /-- The protected range of a clause starts here. -/
  | tryStart (clause : Nat)
  /-- The handler of a clause starts here. -/
  | handlerStart (clause : Nat)
  /-- The filter of a clause starts here. -/
  | filterStart (clause : Nat)
  /-- The branch or switch at `source` goes here. -/
  | branch (source : Nat)
  /-- The conditional branch at `source` goes on here when it is not taken. -/
  | fallThrough (source : Nat)
  deriving DecidableEq

namespace Entry

/-- The instruction that control comes from. -/
def instruction? : Entry → Option Nat
  | .branch source | .fallThrough source => some source
  | _ => none

/-- The clause, by its place in the list, that starts here. -/
def clause? : Entry → Option Nat
  | .tryStart clause | .handlerStart clause | .filterStart clause => some clause
  | _ => none

/-- The reason in words. -/
def text : Entry → String
  | .method => "MethodEntry"
  | .tryStart clause => s!"BeginTry exception block #{clause}"
  | .handlerStart clause => s!"BeginHandler exception block #{clause}"
  | .filterStart clause => s!"BeginFilter exception block #{clause}"
  | .branch source => "Branch " ++ label source
  | .fallThrough source => "ConditionalFallthrough " ++ label source

/-- The place of a reason in the order: its kind, then its number. -/
def rank : Entry → Nat × Nat
  | .method => (0, 0)
  | .tryStart clause => (1, clause)
  | .handlerStart clause => (2, clause)
  | .filterStart clause => (3, clause)
  | .branch source => (4, source)
  | .fallThrough source => (5, source)

/-- Entries are ordered by kind, then by number. -/
instance : LT Entry :=
  ⟨fun a b => a.rank.1 < b.rank.1 ∨ (a.rank.1 = b.rank.1 ∧ a.rank.2 < b.rank.2)⟩

instance : DecidableLT Entry := fun a b =>
  inferInstanceAs (Decidable (a.rank.1 < b.rank.1 ∨ (a.rank.1 = b.rank.1 ∧ a.rank.2 < b.rank.2)))

end Entry

end Provenance
