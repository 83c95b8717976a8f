import Mathlib.Data.Finset.Card
import Provenance.Proofs.EdgeQueries

/-!
# A set of edges after any history

However edges are recorded, one after the other and with any repetitions, the set answers as the
finite set of the edges that were recorded (`EdgeSet.represents_history`). What it stores is the
groups of that set, each in ascending order and none of them empty (`EdgeSet.Holds`); every answer
is read off them.
-/

namespace Provenance

/-- The list has the values with a property and no others, in strictly ascending order. -/
structure Enumerates {α : Type} [LT α] (l : List α) (p : α → Prop) : Prop where
  ascending : l.Pairwise (· < ·)
  mem_iff : ∀ a, a ∈ l ↔ p a

/-- There is one list of the values with a property in strictly ascending order. -/
theorem Enumerates.unique {α : Type} [LT α] [Std.Irrefl (α := α) (· < ·)]
    [Std.Antisymm (α := α) (· < ·)] {l l' : List α} {p : α → Prop} (h : Enumerates l p)
    (h' : Enumerates l' p) : l = l' :=
  h.ascending.eq_of_mem_iff h'.ascending fun a => (h.mem_iff a).trans (h'.mem_iff a).symm

/-! ## Edges -/

namespace Edge

/-- Edges are ordered by consumer, then by position and producer. -/
instance : LT Edge :=
  ⟨fun a b => a.consumer < b.consumer ∨ (a.consumer = b.consumer ∧ a.input < b.input)⟩

theorem lt_iff {a b : Edge} :
    a < b ↔ a.consumer < b.consumer ∨ (a.consumer = b.consumer ∧ a.input < b.input) :=
  Iff.rfl

theorem ne_of_lt {a b : Edge} (h : a < b) : a ≠ b := by
  rintro rfl
  rcases h with h | ⟨-, h⟩
  · exact Nat.lt_irrefl _ h
  · exact Std.Irrefl.irrefl _ h

instance : Std.Irrefl (α := Edge) (· < ·) where
  irrefl _ h := ne_of_lt h rfl

instance : Std.Antisymm (α := Edge) (· < ·) where
  antisymm a b hab hba := by
    rw [lt_iff] at hab hba
    rcases hab with hab | ⟨hconsumer, hab⟩
    · omega
    · rcases hba with hba | ⟨-, hba⟩
      · omega
      · exact absurd (Trans.trans hab hba) (Std.Irrefl.irrefl _)

end Edge

namespace EdgeSet

/-- The set answers every question as a finite set of edges does. -/
structure Represents (s : EdgeSet) (recorded : Finset Edge) : Prop where
  record : ∀ e, (s.record e).1 = true ↔ e ∉ recorded
  edges : Enumerates s.toList fun e => e ∈ recorded
  size : s.size = recorded.card
  isEmpty : s.isEmpty = true ↔ recorded = ∅
  sources : ∀ consumer,
    Enumerates (s.sources consumer) fun e => e ∈ recorded ∧ e.consumer = consumer
  producers : ∀ consumer position,
    Enumerates (s.producers consumer position) fun producer =>
      ⟨consumer, position, producer⟩ ∈ recorded
  consumers : Enumerates s.consumers fun consumer => ∃ e ∈ recorded, e.consumer = consumer
  isConsumed : ∀ producer,
    s.isConsumed producer = true ↔ ∃ e ∈ recorded, e.input.producer = producer

/-- The set stores a finite set of edges: each group in ascending order, and no empty groups. -/
structure Holds (s : EdgeSet) (recorded : Finset Edge) : Prop where
  mem_iff : ∀ e : Edge, e.input ∈ s.inputsOf e.consumer ↔ e ∈ recorded
  ascending : ∀ consumer, (s.inputsOf consumer).Pairwise (· < ·)
  occupied : s.inputs.Occupied

/-- A producer is consumed if some edge has it. -/
theorem isConsumed_eq_any (s : EdgeSet) (producer : Nat) :
    s.isConsumed producer = s.toList.any fun e => e.input.producer = producer := by
  have hany : ∀ (groups : List (Nat × List Input)) (found : Bool),
      groups.foldl (fun found group => found || group.2.any (·.producer = producer)) found =
        (found || groups.any fun group => group.2.any (·.producer = producer)) := by
    intro groups
    induction groups with
    | nil => simp
    | cons group rest ih =>
      intro found
      rw [List.foldl_cons, ih, List.any_cons, Bool.or_assoc]
  rw [isConsumed, Std.TreeMap.foldl_eq_foldl_toList, hany, Bool.false_or, toList, Grouping.toList,
    List.any_map, List.any_flatMap]
  simp only [List.any_map]
  rfl

namespace Holds

variable {s : EdgeSet} {recorded : Finset Edge} (h : s.Holds recorded)

include h

/-- The edges are listed in ascending order. -/
theorem enumerates_toList : Enumerates s.toList fun e => e ∈ recorded where
  ascending := List.pairwise_map.mpr (Grouping.pairwise_toList h.ascending)
  mem_iff e := by rw [mem_toList_iff, h.mem_iff]

/-- The edges are counted as they are listed, and each of them is listed once. -/
theorem size_eq_card : s.size = recorded.card := by
  have hset : recorded = s.toList.toFinset := by
    ext e
    rw [List.mem_toFinset, h.enumerates_toList.mem_iff]
  have hnodup : s.toList.Nodup := h.enumerates_toList.ascending.imp Edge.ne_of_lt
  rw [hset, List.toFinset_card_of_nodup hnodup, size, Grouping.size_eq_length, toList,
    List.length_map]

/-- The edges of a consumer are listed in ascending order. -/
theorem enumerates_sources (consumer : Nat) :
    Enumerates (s.sources consumer) fun e => e ∈ recorded ∧ e.consumer = consumer where
  ascending := List.pairwise_map.mpr ((h.ascending consumer).imp fun hlt => .inr ⟨rfl, hlt⟩)
  mem_iff e := by
    rw [sources, List.mem_map, ← h.mem_iff]
    refine ⟨?_, ?_⟩
    · rintro ⟨input, hinput, rfl⟩
      exact ⟨hinput, rfl⟩
    · rintro ⟨hinput, rfl⟩
      exact ⟨e.input, hinput, rfl⟩

/-- The producers at a position are listed in ascending order. -/
theorem enumerates_producers (consumer position : Nat) :
    Enumerates (s.producers consumer position) fun producer =>
      ⟨consumer, position, producer⟩ ∈ recorded where
  ascending := pairwise_producers (h.ascending consumer) position
  mem_iff producer := by rw [mem_producers_iff, h.enumerates_toList.mem_iff]

/-- The consumers are listed in ascending order. Each of them has an edge, since no group is
empty. -/
theorem enumerates_consumers :
    Enumerates s.consumers fun consumer => ∃ e ∈ recorded, e.consumer = consumer where
  ascending := s.inputs.pairwise_keys
  mem_iff consumer := by
    rw [consumers, h.occupied.mem_keys_iff]
    refine ⟨?_, ?_⟩
    · rintro ⟨input, hinput⟩
      exact ⟨⟨consumer, input⟩, (h.mem_iff _).mp hinput, rfl⟩
    · rintro ⟨e, he, rfl⟩
      exact ⟨e.input, (h.mem_iff e).mpr he⟩

/-- What the set stores decides every answer. -/
theorem represents : s.Represents recorded where
  record e := by
    rw [record, contains, Bool.not_eq_true', Bool.eq_false_iff, ne_eq, List.contains_iff_mem,
      h.mem_iff]
  edges := h.enumerates_toList
  size := h.size_eq_card
  isEmpty := by rw [isEmpty, decide_eq_true_eq, h.size_eq_card, Finset.card_eq_zero]
  sources := h.enumerates_sources
  producers := h.enumerates_producers
  consumers := h.enumerates_consumers
  isConsumed producer := by
    simp only [isConsumed_eq_any, List.any_eq_true, decide_eq_true_eq,
      h.enumerates_toList.mem_iff]

end Holds

/-- Whatever was recorded is what is stored. -/
theorem holds_insertAll (history : List Edge) :
    (empty.insertAll history).Holds history.toFinset where
  mem_iff e := by rw [List.mem_toFinset, mem_inputsOf_insertAll]
  ascending := pairwise_inputsOf_insertAll history
  occupied := occupied_insertAll history Grouping.occupied_empty

/-- After any sequence of recordings, a set that was empty at first answers every question as the
finite set of the recorded edges does. The next recording tells whether its edge is new. -/
theorem represents_history (history : List Edge) :
    (history.foldl (fun s e => (s.record e).2) empty).Represents history.toFinset :=
  (holds_insertAll history).represents

end EdgeSet

end Provenance
