import Provenance.Proofs.PathKey
import Provenance.Proofs.Repetition

/-!
# A set of paths after any history

A set of paths keeps a list of paths and an index by key. The index finds exactly what is listed
(`PathSet.Indexed`), and since keys tell paths apart, comparing keys is comparing paths: after any
sequence of insertions the set stores each path that was inserted, once and in the order of the
first insertions, and every look-up answers accordingly (`PathSet.stores_history`).
-/

namespace Provenance.PathSet

/-- The set stores what was inserted: each path once, in the order of its first insertion, and under
its own key. -/
structure Stores (s : PathSet) (history : List Path) : Prop where
  record : ∀ p, (s.record p).1 = true ↔ p ∉ history
  toList : s.toList = history.eraseDups
  contains : ∀ key, s.contains key = (s.get? key).isSome
  find : ∀ key, s.get? key = s.toList.find? (·.key = key)
  get : ∀ p, s.get? p.key = if p ∈ history then some p else none
  nodup_keys : s.keys.Nodup
  length_keys : s.keys.length = s.size

/-- The index finds the listed paths and no others. -/
def Indexed (s : PathSet) : Prop :=
  ∀ key p, s.get? key = some p ↔ p ∈ s.latest ∧ p.key = key

/-- The empty set finds nothing. -/
theorem indexed_empty : Indexed empty := by
  simp [Indexed, empty, get?]

/-- Inserting lists a path and enters it into the index. -/
theorem Indexed.insert {s : PathSet} (h : s.Indexed) (p : Path) : (s.insert p).Indexed := by
  intro key q
  unfold PathSet.insert
  by_cases hknown : s.contains p.key
  · rw [if_pos hknown]
    exact h key q
  · rw [if_neg hknown]
    simp only [get?, Std.TreeMap.getElem?_insert, Std.LawfulEqCmp.compare_eq_iff_eq, List.mem_cons]
    split
    · next hkey =>
      -- No other path has this key, so an entry that is replaced is the same one.
      subst hkey
      rw [Option.some.injEq]
      constructor
      · rintro rfl
        exact ⟨.inl rfl, rfl⟩
      · rintro ⟨-, hkey⟩
        exact (Path.key_injective hkey).symm
    · next hkey =>
      refine (h key q).trans ⟨fun ⟨hq, hqkey⟩ => ⟨.inr hq, hqkey⟩, ?_⟩
      rintro ⟨rfl | hq, hqkey⟩
      · exact absurd hqkey hkey
      · exact ⟨hq, hqkey⟩

/-- After any insertions the index finds the listed paths and no others. -/
theorem indexed_foldl_insert (ps : List Path) {s : PathSet} (h : s.Indexed) :
    (ps.foldl PathSet.insert s).Indexed := by
  induction ps generalizing s with
  | nil => exact h
  | cons p rest ih => exact ih (h.insert p)

/-- Looking a key up in the index is searching the list for it. -/
theorem Indexed.get?_eq_find? {s : PathSet} (h : s.Indexed) (key : String) :
    s.get? key = s.toList.find? (·.key = key) := by
  cases hfind : s.toList.find? (·.key = key) with
  | some p =>
    have hkey : p.key = key := by simpa using List.find?_some hfind
    exact (h key p).mpr ⟨List.mem_reverse.mp (List.mem_of_find?_eq_some hfind), hkey⟩
  | none =>
    rw [List.find?_eq_none] at hfind
    rw [Option.eq_none_iff_forall_ne_some]
    intro p hp
    obtain ⟨hmem, hkey⟩ := (h key p).mp hp
    exact hfind p (List.mem_reverse.mpr hmem) (decide_eq_true hkey)

/-- Under the key of a path the index has that path or nothing. -/
theorem Indexed.get?_key {s : PathSet} (h : s.Indexed) (p : Path) :
    s.get? p.key = if p ∈ s.latest then some p else none := by
  split
  · next hp => exact (h p.key p).mpr ⟨hp, rfl⟩
  · next hp =>
    rw [Option.eq_none_iff_forall_ne_some]
    intro q hq
    obtain ⟨hmem, hkey⟩ := (h p.key q).mp hq
    exact hp (Path.key_injective hkey ▸ hmem)

/-- Keys tell paths apart, so after any sequence of insertions a set that was empty at first stores
what was inserted. The next insertion tells whether its path is new. -/
theorem stores_history :
    Function.Injective Path.key ∧ ∀ history : List Path,
      (history.foldl (fun s p => (s.record p).2) empty).Stores history := by
  refine ⟨Path.key_injective, fun history => ?_⟩
  show (history.foldl insert empty).Stores history
  obtain ⟨hlist, hwf⟩ := toList_foldl_insert history
  have hindexed := indexed_foldl_insert history indexed_empty
  have hmem : ∀ p, p ∈ (history.foldl insert empty).latest ↔ p ∈ history := by
    intro p
    rw [← List.mem_reverse, ← toList, hlist, List.mem_eraseDups]
  exact
    { record := fun p => by
        rw [← hmem p, ← hwf.contains_key, record, Bool.not_eq_true', Bool.eq_false_iff]
      toList := hlist
      contains := fun key => Std.TreeMap.contains_eq_isSome_getElem?
      find := hindexed.get?_eq_find?
      get := fun p => (hindexed.get?_key p).trans (by simp only [hmem])
      nodup_keys := by
        rw [keys, hlist]
        exact (nodup_eraseDups history).map Path.key_injective
      length_keys := by rw [keys, List.length_map, size_foldl_insert] }

end Provenance.PathSet
