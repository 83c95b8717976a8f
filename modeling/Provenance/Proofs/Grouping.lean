import Provenance.Grouping
import Std.Data.TreeMap

/-!
# What a grouping holds

A grouping built from a list of pairs holds the pairs of the list and no others
(`Grouping.mem_group_ofList`), and each of its groups ascends strictly
(`Grouping.pairwise_group_ofList`). So a group is a set in its canonical order, whatever the order
in which its pairs were added. No group is empty (`Grouping.Occupied`), so that the keys are those
of the pairs (`Grouping.mem_keys_ofList`).
-/

namespace Provenance

section

variable {α : Type} [LT α] [DecidableLT α]

/-- Inserting a value adds that value and nothing else. -/
theorem mem_insertAscending [Std.Trichotomous (α := α) (· < ·)] {a b : α} {l : List α} :
    b ∈ insertAscending a l ↔ b = a ∨ b ∈ l := by
  induction l with
  | nil => simp [insertAscending]
  | cons c rest ih =>
    rw [insertAscending]
    split
    · exact List.mem_cons
    · split
      · rw [List.mem_cons, List.mem_cons, ih]
        exact or_left_comm
      · next hac hca =>
        cases Std.Trichotomous.trichotomous a c hac hca
        simp

/-- Inserting a value keeps a list in strictly ascending order. -/
theorem pairwise_insertAscending [Std.Trichotomous (α := α) (· < ·)]
    [Trans (α := α) (· < ·) (· < ·) (· < ·)] {a : α} {l : List α} (h : l.Pairwise (· < ·)) :
    (insertAscending a l).Pairwise (· < ·) := by
  induction l with
  | nil => simp [insertAscending]
  | cons b rest ih =>
    obtain ⟨hb, hrest⟩ := List.pairwise_cons.mp h
    rw [insertAscending]
    split
    · next hab =>
      refine List.pairwise_cons.mpr ⟨fun c hc => ?_, h⟩
      rcases List.mem_cons.mp hc with rfl | hc
      · exact hab
      · exact Trans.trans hab (hb c hc)
    · split
      · next hba =>
        refine List.pairwise_cons.mpr ⟨fun c hc => ?_, ih hrest⟩
        rcases mem_insertAscending.mp hc with rfl | hc
        · exact hba
        · exact hb c hc
      · exact h

/-- A list into which a value was inserted is not empty. -/
theorem insertAscending_ne_nil (a : α) (l : List α) :
    insertAscending a l ≠ [] := by
  cases l with
  | nil => exact List.cons_ne_nil _ _
  | cons b rest =>
    rw [insertAscending]
    split
    · exact List.cons_ne_nil _ _
    · split <;> exact List.cons_ne_nil _ _

end

/-- Counting groups one after the other counts what they hold. -/
theorem foldl_add_length {α : Type} (groups : List (Nat × List α)) (n : Nat) :
    groups.foldl (fun n group => n + group.2.length) n = n + (groups.flatMap (·.2)).length := by
  induction groups generalizing n with
  | nil => rfl
  | cons group rest ih =>
    rw [List.foldl_cons, ih, List.flatMap_cons, List.length_append, Nat.add_assoc]

namespace Grouping

variable {α : Type}

/-- No value is paired with a key in the empty grouping. -/
@[simp] theorem group_empty (key : Nat) : (empty : Grouping α).group key = [] := by
  simp [group, empty]

/-- The pairs of a grouping are those of its groups. -/
theorem mem_toList_iff {g : Grouping α} {key : Nat} {a : α} :
    (key, a) ∈ g.toList ↔ a ∈ g.group key := by
  unfold toList group
  rw [List.mem_flatMap, Std.TreeMap.getD_eq_getD_getElem?]
  refine ⟨fun h => ?_, fun h => ?_⟩
  · obtain ⟨⟨k, values⟩, hgroup, hpair⟩ := h
    obtain ⟨b, hb, heq⟩ := List.mem_map.mp hpair
    cases heq
    rw [Std.TreeMap.mem_toList_iff_getElem?_eq_some.mp hgroup]
    exact hb
  · cases hgroup : g.groups[key]? with
    | none =>
      rw [hgroup] at h
      cases h
    | some values =>
      rw [hgroup] at h
      exact ⟨(key, values), Std.TreeMap.mem_toList_iff_getElem?_eq_some.mpr hgroup,
        List.mem_map_of_mem h⟩

/-- A group that is stored is the group of its key. -/
theorem group_of_mem {g : Grouping α} {key : Nat} {values : List α}
    (h : (key, values) ∈ g.groups.toList) : g.group key = values := by
  rw [group, Std.TreeMap.getD_eq_getD_getElem?, Std.TreeMap.mem_toList_iff_getElem?_eq_some.mp h]
  rfl

/-- The pairs are counted as they are listed. -/
theorem size_eq_length (g : Grouping α) : g.size = g.toList.length := by
  rw [size, Std.TreeMap.foldl_eq_foldl_toList, foldl_add_length, Nat.zero_add, toList,
    List.length_flatMap, List.length_flatMap]
  simp only [List.length_map]

/-- The keys ascend strictly. -/
theorem pairwise_keys (g : Grouping α) : g.keys.Pairwise (· < ·) :=
  Std.TreeMap.ordered_keys.imp Nat.compare_eq_lt.mp

/-- The pairs ascend by their keys, and those with the same key as their group does. -/
theorem pairwise_toList [LT α] {g : Grouping α} (h : ∀ key, (g.group key).Pairwise (· < ·)) :
    g.toList.Pairwise fun a b => a.1 < b.1 ∨ (a.1 = b.1 ∧ a.2 < b.2) := by
  refine List.pairwise_flatMap.mpr ⟨?_, Std.TreeMap.ordered_keys_toList.imp ?_⟩
  · rintro ⟨key, values⟩ hgroup
    have hvalues := h key
    rw [group_of_mem hgroup] at hvalues
    exact List.pairwise_map.mpr (hvalues.imp fun hlt => .inr ⟨rfl, hlt⟩)
  · rintro ⟨key, values⟩ ⟨key', values'⟩ hlt a ha b hb
    obtain ⟨_, -, rfl⟩ := List.mem_map.mp ha
    obtain ⟨_, -, rfl⟩ := List.mem_map.mp hb
    exact .inl (Nat.compare_eq_lt.mp hlt)

/-- No key of the grouping has an empty group. -/
def Occupied (g : Grouping α) : Prop :=
  ∀ key : Nat, g.groups[key]? ≠ some []

/-- The empty grouping has no key at all. -/
theorem occupied_empty : (empty : Grouping α).Occupied := by
  intro key h
  simp [empty] at h

/-- If no group is empty, the groups determine what is stored at each key. -/
theorem Occupied.equiv {g h : Grouping α} (hg : g.Occupied) (hh : h.Occupied)
    (heq : ∀ key, g.group key = h.group key) : g.groups.Equiv h.groups := by
  refine .of_forall_constGet?_eq fun key => ?_
  have hkey := heq key
  rw [group, group, Std.TreeMap.getD_eq_getD_getElem?, Std.TreeMap.getD_eq_getD_getElem?] at hkey
  -- An empty group and no group would look alike, but there are no empty groups.
  cases hfirst : g.groups[key]? with
  | none =>
    cases hsecond : h.groups[key]? with
    | none => rfl
    | some values =>
      rw [hfirst, hsecond] at hkey
      exact absurd (hsecond.trans (congrArg some hkey.symm)) (hh key)
  | some values =>
    cases hsecond : h.groups[key]? with
    | none =>
      rw [hfirst, hsecond] at hkey
      exact absurd (hfirst.trans (congrArg some hkey)) (hg key)
    | some values' =>
      rw [hfirst, hsecond] at hkey
      exact congrArg some hkey

/-- If no group is empty, the keys are those with which a value is paired. -/
theorem Occupied.mem_keys_iff {g : Grouping α} (h : g.Occupied) {key : Nat} :
    key ∈ g.keys ↔ ∃ a, a ∈ g.group key := by
  rw [keys, Std.TreeMap.mem_keys, Std.TreeMap.mem_iff_isSome_getElem?, group,
    Std.TreeMap.getD_eq_getD_getElem?]
  cases hgroup : g.groups[key]? with
  | none => simp
  | some values =>
    have hne : values ≠ [] := fun hnil => h key (hnil ▸ hgroup)
    simpa using List.exists_mem_of_ne_nil values hne

variable [LT α] [DecidableLT α]

/-- Adding a pair changes the group of its key only. -/
theorem group_insert (g : Grouping α) (key k : Nat) (a : α) :
    (g.insert key a).group k = if key = k then insertAscending a (g.group k) else g.group k := by
  simp only [group, insert, Std.TreeMap.getD_alter, Std.LawfulEqCmp.compare_eq_iff_eq]
  split
  · next h =>
    subst h
    rw [Std.TreeMap.getD_eq_getD_getElem?, Option.getD_some]
  · rfl

/-- Adding a pair leaves no group empty. -/
theorem Occupied.insert {g : Grouping α} (h : g.Occupied) (key : Nat) (a : α) :
    (g.insert key a).Occupied := by
  intro k hk
  rw [Grouping.insert, Std.TreeMap.getElem?_alter] at hk
  split at hk
  · exact insertAscending_ne_nil _ _ (Option.some.inj hk)
  · exact h k hk

/-- Adding pairs leaves no group empty. -/
theorem Occupied.foldl_insert {g : Grouping α} (h : g.Occupied) (pairs : List (Nat × α)) :
    (pairs.foldl (fun g pair => g.insert pair.1 pair.2) g).Occupied := by
  induction pairs generalizing g with
  | nil => exact h
  | cons pair rest ih => exact ih (h.insert pair.1 pair.2)

section

variable [Std.Trichotomous (α := α) (· < ·)]

/-- Adding pairs to a grouping adds these pairs and no others. -/
theorem mem_group_foldl_insert {pairs : List (Nat × α)} {g : Grouping α} {key : Nat} {a : α} :
    a ∈ (pairs.foldl (fun g pair => g.insert pair.1 pair.2) g).group key ↔
      a ∈ g.group key ∨ (key, a) ∈ pairs := by
  induction pairs generalizing g with
  | nil => simp
  | cons pair rest ih =>
    obtain ⟨k, b⟩ := pair
    rw [List.foldl_cons, ih, group_insert, List.mem_cons, Prod.mk.injEq, ← or_assoc]
    refine or_congr_left ?_
    split
    · next h => rw [mem_insertAscending, or_comm, and_iff_right h.symm]
    · next h => rw [or_iff_left fun hk => h hk.1.symm]

/-- A grouping of a list holds the pairs of the list and no others. -/
theorem mem_group_ofList {pairs : List (Nat × α)} {key : Nat} {a : α} :
    a ∈ (ofList pairs).group key ↔ (key, a) ∈ pairs := by
  rw [ofList, mem_group_foldl_insert, group_empty]
  exact or_iff_right (List.not_mem_nil)

/-- The keys of a list's grouping are those of its pairs. -/
theorem mem_keys_ofList {pairs : List (Nat × α)} {key : Nat} :
    key ∈ (ofList pairs).keys ↔ ∃ a, (key, a) ∈ pairs := by
  have hoccupied : (ofList pairs).Occupied := occupied_empty.foldl_insert pairs
  rw [hoccupied.mem_keys_iff]
  exact exists_congr fun a => mem_group_ofList

variable [Trans (α := α) (· < ·) (· < ·) (· < ·)]

/-- Adding pairs keeps groups in strictly ascending order. -/
theorem pairwise_group_foldl_insert {g : Grouping α} (h : ∀ key, (g.group key).Pairwise (· < ·))
    (pairs : List (Nat × α)) (key : Nat) :
    ((pairs.foldl (fun g pair => g.insert pair.1 pair.2) g).group key).Pairwise (· < ·) := by
  induction pairs generalizing g with
  | nil => exact h key
  | cons pair rest ih =>
    refine ih fun k => ?_
    rw [group_insert]
    split
    · exact pairwise_insertAscending (h k)
    · exact h k

/-- The groups of a list's grouping ascend strictly. -/
theorem pairwise_group_ofList (pairs : List (Nat × α)) (key : Nat) :
    ((ofList pairs).group key).Pairwise (· < ·) :=
  pairwise_group_foldl_insert (fun k => by simp) pairs key

end

end Grouping

end Provenance
