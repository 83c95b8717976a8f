import Provenance.Bisect

/-!
# What halving finds

In an array whose keys ascend strictly, searching by halving finds an element exactly if one with
the key is there: `Bisect.find?_eq_some_iff` and `Bisect.isSome_find?_iff`. The search keeps the
last index at which the keys do not exceed the one looked for inside a range that shrinks
(`Bisect.lastBelow_spec`).
-/

namespace Provenance.Bisect

/-- Halving ends inside its range, at its start or at an index where the test holds, and the test
fails after that, provided that it holds of every index before one it holds of. -/
theorem lastBelow_spec {below : Nat → Bool} (down : ∀ i j, i ≤ j → below j → below i)
    (base size : Nat) (pos : 0 < size) :
    base ≤ lastBelow below base size ∧ lastBelow below base size < base + size ∧
      (lastBelow below base size = base ∨ below (lastBelow below base size)) ∧
      ∀ j, lastBelow below base size < j → j < base + size → ¬ below j := by
  fun_induction lastBelow below base size with
  | case1 base size small =>
    exact ⟨Nat.le_refl _, by omega, .inl rfl, fun j hj hj' => by omega⟩
  | case2 base size large half ih =>
    have half_pos : 0 < half := by omega
    have half_lt : half < size := by omega
    obtain ⟨lower, upper, holds, fails⟩ := ih (by omega)
    by_cases middle : below (base + half)
    · simp only [middle, ↓reduceDIte, ↓reduceIte] at lower upper holds fails ⊢
      refine ⟨by omega, by omega, .inr ?_, fun j hj hj' => fails j hj (by omega)⟩
      rcases holds with hbase | hbelow
      · rw [hbase]
        exact middle
      · exact hbelow
    · simp only [middle, Bool.false_eq_true, ↓reduceDIte, ↓reduceIte] at lower upper holds fails ⊢
      refine ⟨lower, by omega, holds, fun j hj hj' => ?_⟩
      by_cases inside : j < base + (size - half)
      · exact fails j hj inside
      · exact fun hbelow => middle (down _ _ (by omega) hbelow)

section

variable {α : Type} {key : α → Nat}

/-- The keys of an array ascend strictly. -/
def Ascending (key : α → Nat) (items : Array α) : Prop :=
  items.toList.Pairwise (key · < key ·)

/-- In an ascending array a later element has a greater key. -/
theorem Ascending.lt {items : Array α} (h : Ascending key items) {i j : Nat} {a b : α}
    (ha : items[i]? = some a) (hb : items[j]? = some b) (hij : i < j) : key a < key b := by
  obtain ⟨hi, rfl⟩ := Array.getElem?_eq_some_iff.mp ha
  obtain ⟨hj, rfl⟩ := Array.getElem?_eq_some_iff.mp hb
  simpa using List.pairwise_iff_getElem.mp h i j hi hj hij

/-- In an ascending array, an index whose key does not exceed `k` comes after no index whose key
does. -/
theorem Ascending.atMost_down {items : Array α} (h : Ascending key items) (k i j : Nat)
    (hij : i ≤ j) (hj : atMost key items k j) : atMost key items k i := by
  rcases Nat.eq_or_lt_of_le hij with rfl | hlt
  · exact hj
  unfold atMost at hj ⊢
  split at hj
  · next b hb =>
    have hi : i < items.size := Nat.lt_trans hlt (Array.getElem?_eq_some_iff.mp hb).1
    have ha : items[i]? = some items[i] := Array.getElem?_eq_getElem hi
    have := h.lt ha hb hlt
    simp only [decide_eq_true_eq, ha] at hj ⊢
    omega
  · cases hj

/-- In an ascending array the search finds the elements of the array and no others. -/
theorem find?_eq_some_iff {items : Array α} (h : Ascending key items) {k : Nat} {a : α} :
    find? key items k = some a ↔ a ∈ items ∧ key a = k := by
  refine ⟨mem_of_find?_eq_some, fun ⟨hmem, hkey⟩ => ?_⟩
  obtain ⟨j, hj⟩ := Array.mem_iff_getElem?.mp hmem
  have hsize : j < items.size := (Array.getElem?_eq_some_iff.mp hj).1
  obtain ⟨-, hlt, holds, fails⟩ :=
    lastBelow_spec (h.atMost_down k) 0 items.size (by omega)
  have hbelow : atMost key items k j := by simp [atMost, hj, hkey]
  -- The search cannot stop before `j`, where the test holds, nor after it, where keys exceed `k`.
  have hle : j ≤ lastBelow (atMost key items k) 0 items.size :=
    Nat.le_of_not_lt fun hgt => fails j hgt (by omega) hbelow
  have hlast : atMost key items k (lastBelow (atMost key items k) 0 items.size) := by
    rcases holds with hbase | hlast
    · rw [hbase]
      exact h.atMost_down k 0 j (Nat.zero_le _) hbelow
    · exact hlast
  have hge : lastBelow (atMost key items k) 0 items.size ≤ j := by
    refine Nat.le_of_not_lt fun hgt => ?_
    unfold atMost at hlast
    split at hlast
    · next b hb =>
      have := h.lt hj hb hgt
      simp only [decide_eq_true_eq] at hlast
      omega
    · cases hlast
  have heq := Nat.le_antisymm hge hle
  simp [find?, heq, hj, hkey]

/-- In an ascending array the search fails exactly on keys that no element has. -/
theorem isSome_find?_iff {items : Array α} (h : Ascending key items) {k : Nat} :
    (find? key items k).isSome ↔ ∃ a ∈ items, key a = k := by
  simp only [Option.isSome_iff_exists, find?_eq_some_iff h]

end

end Provenance.Bisect
