/-!
# Searching by halving

Instructions and blocks are kept in ascending order of their offset, and the one at an offset is
found by halving the range that can hold it. What is found has the key that was looked for,
whatever the order of the array.
-/

namespace Provenance.Bisect

/-- The last index from `base` on, among `size` many, at which `below` holds, provided that it holds
up to some index and not after it; `base` if there is none. -/
def lastBelow (below : Nat → Bool) (base size : Nat) : Nat :=
  if size ≤ 1 then base
  else
    let half := size / 2
    lastBelow below (if below (base + half) then base + half else base) (size - half)
termination_by size

section

variable {α : Type} (key : α → Nat)

/-- Whether the element at an index has a key of at most `k`. -/
def atMost (items : Array α) (k i : Nat) : Bool :=
  match items[i]? with
  | some a => key a ≤ k
  | none => false

/-- The element with key `k` of an array in ascending order of keys. -/
def find? (items : Array α) (k : Nat) : Option α :=
  match items[lastBelow (atMost key items k) 0 items.size]? with
  | some a => if key a = k then some a else none
  | none => none

variable {key}

/-- An element that is found is in the array and has the key looked for. -/
theorem mem_of_find?_eq_some {items : Array α} {k : Nat} {a : α} (h : find? key items k = some a) :
    a ∈ items ∧ key a = k := by
  unfold find? at h
  split at h
  · rename_i b hb
    split at h
    · cases h
      exact ⟨Array.mem_of_getElem? hb, ‹_›⟩
    · cases h
  · cases h

end

end Provenance.Bisect
