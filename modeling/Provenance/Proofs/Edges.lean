import Mathlib.Data.Finset.Sort
import Provenance.Edge
import Provenance.Proofs.Grouping
import Provenance.Proofs.Repetition

/-!
# What a set of edges holds

Of the edges that were added to a set, `recordedPositions` and `recordedProducers` are the positions
of a consumer and the producers at one of them, as finite sets. The set of edges lists them in
ascending order, whatever the order in which the edges were added (`EdgeSet.positions_insertAll`,
`EdgeSet.producers_insertAll`).
-/

namespace Provenance

namespace Input

/-- Inputs are ordered by position first. -/
theorem lt_iff {a b : Input} :
    a < b ↔ a.position < b.position ∨ (a.position = b.position ∧ a.producer < b.producer) :=
  Iff.rfl

instance : Std.Trichotomous (α := Input) (· < ·) where
  trichotomous a b hab hba := by
    rw [lt_iff] at hab hba
    obtain ⟨position, producer⟩ := a
    obtain ⟨position', producer'⟩ := b
    simp only [Input.mk.injEq] at hab hba ⊢
    omega

instance : Trans (α := Input) (· < ·) (· < ·) (· < ·) where
  trans hab hbc := by
    rw [lt_iff] at hab hbc ⊢
    omega

instance : Std.Irrefl (α := Input) (· < ·) where
  irrefl a h := by
    rw [lt_iff] at h
    omega

instance : Std.Antisymm (α := Input) (· < ·) where
  antisymm a b hab hba := by
    rw [lt_iff] at hab hba
    omega

end Input

/-- The positions at which edges give a consumer an input. -/
def recordedPositions (edges : List Edge) (consumer : Nat) : Finset Nat :=
  ((edges.filter (·.consumer = consumer)).map (·.input.position)).toFinset

/-- The producers that edges give a consumer at a position. -/
def recordedProducers (edges : List Edge) (consumer position : Nat) : Finset Nat :=
  ((edges.filter fun e => e.consumer = consumer ∧ e.input.position = position).map
    (·.input.producer)).toFinset

theorem mem_recordedPositions {edges : List Edge} {consumer position : Nat} :
    position ∈ recordedPositions edges consumer ↔
      ∃ producer, ⟨consumer, position, producer⟩ ∈ edges := by
  simp only [recordedPositions, List.mem_toFinset, List.mem_map, List.mem_filter,
    decide_eq_true_eq]
  constructor
  · rintro ⟨⟨consumer, position, producer⟩, ⟨hmem, rfl⟩, rfl⟩
    exact ⟨producer, hmem⟩
  · rintro ⟨producer, hmem⟩
    exact ⟨_, ⟨hmem, rfl⟩, rfl⟩

theorem mem_recordedProducers {edges : List Edge} {consumer position producer : Nat} :
    producer ∈ recordedProducers edges consumer position ↔
      ⟨consumer, position, producer⟩ ∈ edges := by
  simp only [recordedProducers, List.mem_toFinset, List.mem_map, List.mem_filter,
    decide_eq_true_eq]
  constructor
  · rintro ⟨⟨consumer, position, producer⟩, ⟨hmem, rfl, rfl⟩, rfl⟩
    exact hmem
  · intro hmem
    exact ⟨_, ⟨hmem, rfl, rfl⟩, rfl⟩

/-- A list in strictly ascending order is its elements sorted. -/
theorem sort_eq_of_pairwise {s : Finset Nat} {l : List Nat} (hmem : ∀ n, n ∈ s ↔ n ∈ l)
    (h : l.Pairwise (· < ·)) : s.sort (· ≤ ·) = l := by
  have hs : s = l.toFinset := by
    ext n
    rw [hmem, List.mem_toFinset]
  rw [hs, List.toFinset_sort (· ≤ ·) (h.imp Nat.ne_of_lt)]
  exact h.imp Nat.le_of_lt

namespace EdgeSet

/-- Adding edges in two parts is adding them in a row. -/
theorem insertAll_append (s : EdgeSet) (first second : List Edge) :
    s.insertAll (first ++ second) = (s.insertAll first).insertAll second :=
  List.foldl_append ..

/-- Adding edges to a set adds their inputs to the grouping. -/
theorem inputs_insertAll (s : EdgeSet) (edges : List Edge) :
    (s.insertAll edges).inputs =
      (edges.map fun e => (e.consumer, e.input)).foldl (fun g pair => g.insert pair.1 pair.2)
        s.inputs := by
  induction edges generalizing s with
  | nil => rfl
  | cons e rest ih => exact ih (s.insert e)

/-- The edges of a set are the inputs of its consumers. -/
theorem mem_toList_iff {s : EdgeSet} {e : Edge} :
    e ∈ s.toList ↔ e.input ∈ s.inputsOf e.consumer := by
  unfold toList inputsOf
  rw [List.mem_map, ← Grouping.mem_toList_iff]
  refine ⟨fun h => ?_, fun h => ⟨_, h, rfl⟩⟩
  obtain ⟨⟨consumer, input⟩, hmem, heq⟩ := h
  cases heq
  exact hmem

/-- The positions of a consumer are those of its edges. -/
theorem mem_positions_iff {s : EdgeSet} {consumer position : Nat} :
    position ∈ s.positions consumer ↔ ∃ producer, ⟨consumer, position, producer⟩ ∈ s.toList := by
  simp only [positions, List.mem_eraseDups, List.mem_map, mem_toList_iff]
  constructor
  · rintro ⟨⟨position, producer⟩, h, rfl⟩
    exact ⟨producer, h⟩
  · rintro ⟨producer, h⟩
    exact ⟨_, h, rfl⟩

/-- The producers at a position are those of the edges there. -/
theorem mem_producers_iff {s : EdgeSet} {consumer position producer : Nat} :
    producer ∈ s.producers consumer position ↔ ⟨consumer, position, producer⟩ ∈ s.toList := by
  simp only [producers, List.mem_map, List.mem_filter, decide_eq_true_eq, mem_toList_iff]
  constructor
  · rintro ⟨⟨position, producer⟩, ⟨h, rfl⟩, rfl⟩
    exact h
  · exact fun h => ⟨_, ⟨h, rfl⟩, rfl⟩

/-- The empty set has no edges. -/
theorem notMem_toList_empty (e : Edge) : e ∉ empty.toList := by
  rw [mem_toList_iff, inputsOf, empty, Grouping.group_empty]
  exact List.not_mem_nil

/-- Adding edges to a set adds these edges and no others. -/
theorem mem_toList_insertAll {s : EdgeSet} {edges : List Edge} {e : Edge} :
    e ∈ (s.insertAll edges).toList ↔ e ∈ s.toList ∨ e ∈ edges := by
  rw [mem_toList_iff, mem_toList_iff, inputsOf, inputs_insertAll, Grouping.mem_group_foldl_insert]
  refine or_congr_right ?_
  rw [List.mem_map]
  refine ⟨fun h => ?_, fun h => ⟨e, h, rfl⟩⟩
  obtain ⟨⟨consumer, input⟩, hmem, heq⟩ := h
  cases heq
  exact hmem

/-- The inputs of a consumer are those of the edges that were added. -/
theorem mem_inputsOf_insertAll {edges : List Edge} {consumer : Nat} {input : Input} :
    input ∈ (empty.insertAll edges).inputsOf consumer ↔ ⟨consumer, input⟩ ∈ edges := by
  have hiff := mem_toList_iff (s := empty.insertAll edges) (e := ⟨consumer, input⟩)
  exact hiff.symm.trans (mem_toList_insertAll.trans (or_iff_right (notMem_toList_empty _)))

/-- The inputs of a consumer ascend strictly. -/
theorem pairwise_inputsOf_insertAll (edges : List Edge) (consumer : Nat) :
    ((empty.insertAll edges).inputsOf consumer).Pairwise (· < ·) := by
  rw [inputsOf, inputs_insertAll]
  exact Grouping.pairwise_group_foldl_insert (fun key => by simp [empty]) _ _

/-- The positions of a consumer are listed in ascending order. -/
theorem positions_insertAll (edges : List Edge) (consumer : Nat) :
    (empty.insertAll edges).positions consumer =
      (recordedPositions edges consumer).sort (· ≤ ·) := by
  have hascending : ((empty.insertAll edges).positions consumer).Pairwise (· < ·) := by
    have hle : (((empty.insertAll edges).inputsOf consumer).map (·.position)).Pairwise (· ≤ ·) := by
      refine List.pairwise_map.mpr ((pairwise_inputsOf_insertAll edges consumer).imp ?_)
      intro a b hab
      rw [Input.lt_iff] at hab
      omega
    have hboth := (hle.sublist (eraseDups_sublist _)).and (nodup_eraseDups _)
    exact hboth.imp fun ⟨hle, hne⟩ => Nat.lt_of_le_of_ne hle hne
  refine (sort_eq_of_pairwise (fun position => ?_) hascending).symm
  simp only [mem_recordedPositions, mem_positions_iff, mem_toList_iff, mem_inputsOf_insertAll]

/-- The producers at a position ascend strictly if the inputs of the consumer do. -/
theorem pairwise_producers {s : EdgeSet} {consumer : Nat}
    (h : (s.inputsOf consumer).Pairwise (· < ·)) (position : Nat) :
    (s.producers consumer position).Pairwise (· < ·) := by
  have hinputs := h.filter fun input => decide (input.position = position)
  refine List.pairwise_map.mpr (hinputs.imp_of_mem ?_)
  intro a b ha hb hab
  rw [List.mem_filter, decide_eq_true_eq] at ha hb
  rw [Input.lt_iff] at hab
  omega

/-- The producers at a position are listed in ascending order. -/
theorem producers_insertAll (edges : List Edge) (consumer position : Nat) :
    (empty.insertAll edges).producers consumer position =
      (recordedProducers edges consumer position).sort (· ≤ ·) := by
  refine (sort_eq_of_pairwise (fun producer => ?_)
    (pairwise_producers (pairwise_inputsOf_insertAll edges consumer) position)).symm
  simp only [mem_recordedProducers, mem_producers_iff, mem_toList_iff, mem_inputsOf_insertAll]

end EdgeSet

end Provenance
