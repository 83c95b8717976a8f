/-!
# Exception clauses

An exception clause ties a protected range of a method body to its handler. The kind of handler is
a set of flags; a clause without any is a catch clause.
-/

namespace Provenance

/-- An exception clause, with ranges given by start and length. -/
structure Clause where
  /-- The kind of handler, as flags. Bits without a meaning are kept. -/
  flags : UInt16
  tryOffset : UInt32
  tryLength : UInt32
  handlerOffset : UInt32
  handlerLength : UInt32
  /-- Where the filter starts; only meaningful for a filter clause. -/
  filterOffset : UInt32 := 0
  deriving DecidableEq

namespace Clause

/-- The handler runs if its filter accepts the exception. -/
def filterFlag : UInt16 := 1
/-- The handler runs whenever the protected range is left. -/
def finallyFlag : UInt16 := 2
/-- The handler runs when the protected range is left by an exception. -/
def faultFlag : UInt16 := 4

/-- Whether the clause catches exceptions by their type. -/
def isCatch (c : Clause) : Bool := c.flags = 0

/-- Whether the clause has a filter. -/
def isFilter (c : Clause) : Bool := c.flags &&& filterFlag = filterFlag

/-- Whether the handler runs whenever the protected range is left. -/
def isFinally (c : Clause) : Bool := c.flags &&& finallyFlag = finallyFlag

/-- Whether the handler runs when the protected range is left by an exception. -/
def isFault (c : Clause) : Bool := c.flags &&& faultFlag = faultFlag

/-- Whether an exception thrown in the protected range can be handled here. -/
def handlesExceptions (c : Clause) : Bool := c.isCatch || c.isFilter

/-- First offset of the protected range. -/
def tryStart (c : Clause) : Nat := c.tryOffset.toNat

/-- Offset after the protected range. -/
def tryEnd (c : Clause) : Nat := c.tryStart + c.tryLength.toNat

/-- First offset of the handler. -/
def handlerStart (c : Clause) : Nat := c.handlerOffset.toNat

/-- Offset after the handler. -/
def handlerEnd (c : Clause) : Nat := c.handlerStart + c.handlerLength.toNat

/-- First offset of the filter, if the clause has one. -/
def filterStart? (c : Clause) : Option Nat :=
  if c.isFilter then some c.filterOffset.toNat else none

/-- Whether an offset lies in the protected range. -/
def tryContains (c : Clause) (offset : Nat) : Bool :=
  c.tryStart ≤ offset && offset < c.tryEnd

/-- Whether an offset lies in the handler. -/
def handlerContains (c : Clause) (offset : Nat) : Bool :=
  c.handlerStart ≤ offset && offset < c.handlerEnd

/-- The name of the clause's kind; of several flags the first in this order counts. -/
def kindName (c : Clause) : String :=
  if c.isFilter then "filter"
  else if c.isFinally then "finally"
  else if c.isFault then "fault"
  else "catch"

end Clause

end Provenance
