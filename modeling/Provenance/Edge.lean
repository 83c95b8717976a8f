import Provenance.Grouping

/-!
# Data-flow edges

An edge says that an instruction, the consumer, may take as the value at some position of its
operands, counted from the top of the stack, a value that another instruction, the producer, left
there. The edges of a method form a finite set, which is asked by consumer.
-/

namespace Provenance

/-- An operand of an instruction: its position, counted from the top of the stack, and the
instruction that may have produced it. -/
structure Input where
  position : Nat
  producer : Nat
  deriving DecidableEq

namespace Input

/-- Inputs are ordered by position, then by producer. -/
instance : LT Input :=
  ⟨fun a b => a.position < b.position ∨ (a.position = b.position ∧ a.producer < b.producer)⟩

instance : DecidableLT Input := fun a b =>
  inferInstanceAs
    (Decidable (a.position < b.position ∨ (a.position = b.position ∧ a.producer < b.producer)))

end Input

/-- An input together with the instruction that consumes it. -/
structure Edge where
  consumer : Nat
  input : Input
  deriving DecidableEq

/-- A finite set of edges. -/
structure EdgeSet where
  inputs : Grouping Input

namespace EdgeSet

/-- The set without edges. -/
def empty : EdgeSet := ⟨.empty⟩

/-- The inputs of a consumer, in ascending order. -/
def inputsOf (s : EdgeSet) (consumer : Nat) : List Input :=
  s.inputs.group consumer

/-- Whether an edge is in the set. -/
def contains (s : EdgeSet) (e : Edge) : Bool :=
  (s.inputsOf e.consumer).contains e.input

/-- Adds an edge. -/
def insert (s : EdgeSet) (e : Edge) : EdgeSet :=
  ⟨s.inputs.insert e.consumer e.input⟩

/-- Adds an edge and tells whether it is new. -/
def record (s : EdgeSet) (e : Edge) : Bool × EdgeSet :=
  (!s.contains e, s.insert e)

/-- Adds the edges of a list. -/
def insertAll (s : EdgeSet) (edges : List Edge) : EdgeSet :=
  edges.foldl insert s

/-- The edges of a consumer, in ascending order. -/
def sources (s : EdgeSet) (consumer : Nat) : List Edge :=
  (s.inputsOf consumer).map (⟨consumer, ·⟩)

/-- The positions at which a consumer has an input, in ascending order. -/
def positions (s : EdgeSet) (consumer : Nat) : List Nat :=
  ((s.inputsOf consumer).map (·.position)).eraseDups

/-- The producers of a consumer's input at a position, in ascending order. -/
def producers (s : EdgeSet) (consumer position : Nat) : List Nat :=
  ((s.inputsOf consumer).filter (·.position = position)).map (·.producer)

/-- The consumers, in ascending order. -/
def consumers (s : EdgeSet) : List Nat :=
  s.inputs.keys

/-- The edges, in ascending order. -/
def toList (s : EdgeSet) : List Edge :=
  s.inputs.toList.map fun (consumer, input) => ⟨consumer, input⟩

/-- Whether some instruction consumes what a producer leaves. -/
def isConsumed (s : EdgeSet) (producer : Nat) : Bool :=
  s.inputs.groups.foldl (fun found _ inputs => found || inputs.any (·.producer = producer)) false

/-- Number of edges. -/
def size (s : EdgeSet) : Nat :=
  s.inputs.size

/-- Whether there are no edges. -/
def isEmpty (s : EdgeSet) : Bool :=
  s.size = 0

end EdgeSet

end Provenance
