import Provenance.Label
import Std.Data.TreeMap.Basic

/-!
# Paths

A path through a method is the list of the starts of the blocks it visits, in execution order. Its
key is the list written out, and a set of paths keeps one path per key in the order of discovery.
-/

namespace Provenance

/-- A path, as the starts of the blocks it visits in execution order. -/
structure Path where
  starts : List Nat
  deriving DecidableEq

/-- The path written out, for instance `IL_0000=>IL_0007`. -/
def Path.key (p : Path) : String :=
  "=>".intercalate (p.starts.map label)

/-- Distinct paths in the order in which they were found. -/
structure PathSet where
  /-- The paths, the latest first. -/
  latest : List Path
  /-- The paths by their key. -/
  byKey : Std.TreeMap String Path

namespace PathSet

/-- The set without paths. -/
def empty : PathSet := ⟨[], ∅⟩

/-- Whether a path with this key is in the set. -/
def contains (s : PathSet) (key : String) : Bool :=
  s.byKey.contains key

/-- Adds a path at the end, unless one with the same key is there. -/
def insert (s : PathSet) (p : Path) : PathSet :=
  let key := p.key
  if s.contains key then s else ⟨p :: s.latest, s.byKey.insert key p⟩

/-- Adds a path at the end and tells whether it is new. -/
def record (s : PathSet) (p : Path) : Bool × PathSet :=
  (!s.contains p.key, s.insert p)

/-- The path with this key. -/
def get? (s : PathSet) (key : String) : Option Path :=
  s.byKey[key]?

/-- Number of paths. -/
def size (s : PathSet) : Nat :=
  s.byKey.size

/-- Whether there is no path. -/
def isEmpty (s : PathSet) : Bool :=
  s.latest.isEmpty

/-- The paths in the order of discovery. -/
def toList (s : PathSet) : List Path :=
  s.latest.reverse

/-- The keys in the order of discovery. -/
def keys (s : PathSet) : List String :=
  s.toList.map Path.key

end PathSet

end Provenance
