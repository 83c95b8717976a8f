import Std.Data.TreeMap.Basic

/-!
# Groupings

A finite set of pairs of a number and a value, grouped by the number. The groups are in ascending
order of their key and each group is in ascending order of its values, without repetition, so two
groupings with the same pairs list them in the same way.
-/

namespace Provenance

section

variable {α : Type} [LT α] [DecidableLT α]

/-- Inserts a value into a list in strictly ascending order, unless it is there. -/
def insertAscending (a : α) : List α → List α
  | [] => [a]
  | b :: rest =>
    if a < b then a :: b :: rest
    else if b < a then b :: insertAscending a rest
    else b :: rest

end

/-- A finite set of pairs, grouped by their first component. -/
structure Grouping (α : Type) where
  groups : Std.TreeMap Nat (List α)

namespace Grouping

variable {α : Type}

/-- The set without pairs. -/
def empty : Grouping α := ⟨∅⟩

/-- The values paired with a key, in ascending order. -/
def group (g : Grouping α) (key : Nat) : List α :=
  g.groups.getD key []

/-- The keys of the pairs, in ascending order. -/
def keys (g : Grouping α) : List Nat :=
  g.groups.keys

/-- The pairs, in ascending order. -/
def toList (g : Grouping α) : List (Nat × α) :=
  g.groups.toList.flatMap fun (key, values) => values.map (key, ·)

/-- Number of pairs. -/
def size (g : Grouping α) : Nat :=
  g.groups.foldl (fun n _ values => n + values.length) 0

variable [LT α] [DecidableLT α]

/-- Adds a pair. -/
def insert (g : Grouping α) (key : Nat) (a : α) : Grouping α :=
  ⟨g.groups.alter key fun values? => some (insertAscending a (values?.getD []))⟩

/-- The set of the pairs of a list. -/
def ofList (pairs : List (Nat × α)) : Grouping α :=
  pairs.foldl (fun g pair => g.insert pair.1 pair.2) empty

end Grouping

end Provenance
