import Mathlib.Data.Finset.Card
import Provenance.Proofs.EdgeHistory
import Std.Data.HashMap.Lemmas
import Std.Data.TreeSet.Lemmas

/-!
# Edges in the order in which they were recorded

A set of edges can also be kept as a log: for each consumer the edges in the order in which they
were recorded, and the consumers in no particular order (`EdgeLog`). A recording then looks for its
edge and appends it, and the order is made up for when a question is asked: each answer is sorted.
After any recordings the log gives the same answers as the set that keeps its groups in order
(`EdgeLog.agrees_history`).
-/

namespace Provenance

/-! ## Sorting -/

section

variable {α : Type} [LT α] [DecidableLT α]

/-- A list in ascending order. -/
def sortAscending (l : List α) : List α :=
  l.mergeSort fun a b => !decide (b < a)

variable [Std.Trichotomous (α := α) (· < ·)] [Trans (α := α) (· < ·) (· < ·) (· < ·)]
variable [Std.Irrefl (α := α) (· < ·)]

/-- Sorting values without repetition lists them in strictly ascending order. -/
theorem enumerates_sortAscending {l : List α} {p : α → Prop} (hnodup : l.Nodup)
    (hmem : ∀ a, a ∈ l ↔ p a) : Enumerates (sortAscending l) p where
  ascending := by
    have hsorted : (sortAscending l).Pairwise fun a b => (!decide (b < a)) = true := by
      refine List.pairwise_mergeSort (fun a b c hab hbc => ?_) (fun a b => ?_) l
      · simp only [Bool.not_eq_true', decide_eq_false_iff_not] at hab hbc ⊢
        intro hca
        by_cases hlt : a < b
        · exact hbc (Trans.trans hca hlt)
        · exact hbc (Std.Trichotomous.trichotomous a b hlt hab ▸ hca)
      · simp only [Bool.or_eq_true, Bool.not_eq_true', decide_eq_false_iff_not]
        by_cases hlt : b < a
        · exact .inr fun hgt => Std.Irrefl.irrefl a (Trans.trans hgt hlt)
        · exact .inl hlt
    have hnodup : (sortAscending l).Nodup := (List.mergeSort_perm ..).nodup_iff.mpr hnodup
    refine (hsorted.and hnodup).imp fun {a b} ⟨hle, hne⟩ => ?_
    rw [Bool.not_eq_true', decide_eq_false_iff_not] at hle
    by_contra hlt
    exact hne (Std.Trichotomous.trichotomous a b hlt hle)
  mem_iff a := List.mem_mergeSort.trans (hmem a)

end

namespace Edge

instance : DecidableLT Edge := fun a b =>
  inferInstanceAs
    (Decidable (a.consumer < b.consumer ∨ (a.consumer = b.consumer ∧ a.input < b.input)))

instance : Std.Trichotomous (α := Edge) (· < ·) where
  trichotomous a b hab hba := by
    simp only [lt_iff, not_or, not_and] at hab hba
    obtain ⟨consumer, input⟩ := a
    obtain ⟨consumer', input'⟩ := b
    obtain rfl : consumer = consumer' := Nat.le_antisymm (Nat.not_lt.mp hba.1) (Nat.not_lt.mp hab.1)
    rw [Std.Trichotomous.trichotomous input input' (hab.2 rfl) (hba.2 rfl)]

instance : Trans (α := Edge) (· < ·) (· < ·) (· < ·) where
  trans {a b c} hab hbc := by
    rw [lt_iff] at hab hbc ⊢
    rcases hab with hab | ⟨hab, hinput⟩
    · rcases hbc with hbc | ⟨hbc, -⟩
      · exact .inl (Nat.lt_trans hab hbc)
      · exact .inl (hbc ▸ hab)
    · rcases hbc with hbc | ⟨hbc, hinput'⟩
      · exact .inl (hab ▸ hbc)
      · exact .inr ⟨hab.trans hbc, Trans.trans hinput hinput'⟩

end Edge

/-! ## Logs -/

/-- The edges of each consumer in the order in which they were recorded. -/
structure EdgeLog where
  buckets : Std.HashMap Nat (List Edge)

namespace EdgeLog

/-- The log without edges. -/
def empty : EdgeLog := ⟨∅⟩

/-- The edges of a consumer in the order in which they were recorded. -/
def bucket (l : EdgeLog) (consumer : Nat) : List Edge :=
  l.buckets.getD consumer []

/-- Appends an edge to those of its consumer, unless it is there, and tells whether it is new. -/
def record (l : EdgeLog) (e : Edge) : Bool × EdgeLog :=
  let bucket := l.bucket e.consumer
  if bucket.contains e then (false, l)
  else (true, ⟨l.buckets.insert e.consumer (bucket ++ [e])⟩)

/-- The edges of a consumer, in ascending order. -/
def sources (l : EdgeLog) (consumer : Nat) : List Edge :=
  sortAscending (l.bucket consumer)

/-- The producers of a consumer's input at a position, in ascending order. -/
def producers (l : EdgeLog) (consumer position : Nat) : List Nat :=
  (Std.TreeSet.ofList (((l.bucket consumer).filter (·.input.position = position)).map
    (·.input.producer))).toList

/-- The consumers, in ascending order. -/
def consumers (l : EdgeLog) : List Nat :=
  sortAscending l.buckets.keys

/-- Whether some instruction consumes what a producer leaves. -/
def isConsumed (l : EdgeLog) (producer : Nat) : Bool :=
  l.buckets.any fun _ bucket => bucket.any (·.input.producer = producer)

/-- The edges, in ascending order. -/
def toList (l : EdgeLog) : List Edge :=
  sortAscending (l.buckets.toList.flatMap (·.2))

/-- Number of edges. -/
def size (l : EdgeLog) : Nat :=
  l.buckets.fold (fun n _ bucket => n + bucket.length) 0

/-- Whether there are no edges. -/
def isEmpty (l : EdgeLog) : Bool :=
  l.size = 0

/-! ## What a log holds -/

/-- The log holds a finite set of edges: each of them once, in the bucket of its consumer, and no
empty buckets. -/
structure Holds (l : EdgeLog) (recorded : Finset Edge) : Prop where
  mem_iff : ∀ consumer e, e ∈ l.bucket consumer ↔ e ∈ recorded ∧ e.consumer = consumer
  nodup : ∀ consumer, (l.bucket consumer).Nodup
  occupied : ∀ consumer : Nat, l.buckets[consumer]? ≠ some []

/-- A new log holds nothing. -/
theorem holds_empty : empty.Holds ∅ where
  mem_iff consumer e := by simp [bucket, empty]
  nodup consumer := by simp [bucket, empty]
  occupied consumer := by simp [empty]

/-- An edge is new if it is not among those of its consumer. -/
theorem record_eq (l : EdgeLog) (e : Edge) :
    l.record e = if e ∈ l.bucket e.consumer then (false, l)
      else (true, ⟨l.buckets.insert e.consumer (l.bucket e.consumer ++ [e])⟩) := by
  simp only [record, List.contains_iff_mem]

/-- Appending an edge changes the bucket of its consumer only. -/
theorem bucket_insert (l : EdgeLog) (e : Edge) (consumer : Nat) :
    bucket ⟨l.buckets.insert e.consumer (l.bucket e.consumer ++ [e])⟩ consumer =
      if e.consumer = consumer then l.bucket consumer ++ [e] else l.bucket consumer := by
  simp only [bucket, Std.HashMap.getD_insert, beq_iff_eq]
  split
  · next h => rw [h]
  · rfl

namespace Holds

variable {l : EdgeLog} {recorded : Finset Edge} (h : l.Holds recorded)

include h

/-- A recording tells whether its edge is new. -/
theorem record_fst (e : Edge) : (l.record e).1 = true ↔ e ∉ recorded := by
  have hmem := h.mem_iff e.consumer e
  rw [record_eq]
  split
  · next he => exact iff_of_false Bool.false_ne_true fun hnew => hnew (hmem.mp he).1
  · next he => exact iff_of_true rfl fun hold => he (hmem.mpr ⟨hold, rfl⟩)

/-- A recording adds its edge. -/
theorem record_snd (e : Edge) : (l.record e).2.Holds (insert e recorded) := by
  have hmem := h.mem_iff e.consumer e
  rw [record_eq]
  split
  · next he => rwa [Finset.insert_eq_of_mem (hmem.mp he).1]
  · next he =>
    refine ⟨fun consumer e' => ?_, fun consumer => ?_, fun consumer => ?_⟩
    · rw [bucket_insert, Finset.mem_insert]
      split
      · next hconsumer =>
        rw [List.mem_append, List.mem_singleton, h.mem_iff, or_comm, or_and_right]
        exact or_congr_left (iff_self_and.mpr fun heq => heq ▸ hconsumer)
      · next hconsumer =>
        rw [h.mem_iff, or_and_right]
        refine (or_iff_right ?_).symm
        rintro ⟨rfl, hnew⟩
        exact hconsumer hnew
    · rw [bucket_insert]
      split
      · next hconsumer =>
        subst hconsumer
        refine List.nodup_append.mpr ⟨h.nodup _, List.nodup_singleton e, ?_⟩
        intro a ha b hb hab
        rw [List.mem_singleton.mp hb] at hab
        exact he (hab ▸ ha)
      · exact h.nodup consumer
    · rw [Std.HashMap.getElem?_insert]
      split
      · simp
      · exact h.occupied consumer

/-- The edges of a consumer are listed in ascending order. -/
theorem enumerates_sources (consumer : Nat) :
    Enumerates (l.sources consumer) fun e => e ∈ recorded ∧ e.consumer = consumer :=
  enumerates_sortAscending (h.nodup consumer) (h.mem_iff consumer)

/-- The producers at a position are listed in ascending order. -/
theorem enumerates_producers (consumer position : Nat) :
    Enumerates (l.producers consumer position) fun producer =>
      ⟨consumer, position, producer⟩ ∈ recorded where
  ascending := Std.TreeSet.ordered_toList.imp Nat.compare_eq_lt.mp
  mem_iff producer := by
    simp only [producers, Std.TreeSet.mem_toList, Std.TreeSet.mem_ofList, List.contains_iff_mem,
      List.mem_map, List.mem_filter, decide_eq_true_eq, h.mem_iff]
    constructor
    · rintro ⟨⟨consumer, position, producer⟩, ⟨⟨hmem, rfl⟩, rfl⟩, rfl⟩
      exact hmem
    · intro hmem
      exact ⟨_, ⟨⟨hmem, rfl⟩, rfl⟩, rfl⟩

/-- What is stored for a consumer are its edges, if it has any. -/
theorem getElem?_eq_some_iff {consumer : Nat} {bucket : List Edge} :
    l.buckets[consumer]? = some bucket ↔ bucket ≠ [] ∧ l.bucket consumer = bucket := by
  rw [EdgeLog.bucket, Std.HashMap.getD_eq_getD_getElem?]
  cases hbucket : l.buckets[consumer]? with
  | none => exact iff_of_false nofun fun hempty => hempty.1 hempty.2.symm
  | some stored =>
    rw [Option.some.injEq, Option.getD_some]
    refine ⟨?_, And.right⟩
    rintro rfl
    exact ⟨fun hnil => h.occupied consumer (hnil ▸ hbucket), rfl⟩

/-- The edges that are stored, bucket by bucket. -/
theorem mem_flatMap_iff (e : Edge) : e ∈ l.buckets.toList.flatMap (·.2) ↔ e ∈ recorded := by
  simp only [List.mem_flatMap, Prod.exists, Std.HashMap.mem_toList_iff_getElem?_eq_some,
    h.getElem?_eq_some_iff]
  constructor
  · rintro ⟨consumer, _, ⟨-, rfl⟩, he⟩
    exact ((h.mem_iff consumer e).mp he).1
  · intro he
    have hmem := (h.mem_iff e.consumer e).mpr ⟨he, rfl⟩
    exact ⟨e.consumer, _, ⟨List.ne_nil_of_mem hmem, rfl⟩, hmem⟩

/-- No edge is stored twice. -/
theorem nodup_flatMap : (l.buckets.toList.flatMap (·.2)).Nodup := by
  have hstored : ∀ group ∈ l.buckets.toList, l.bucket group.1 = group.2 := fun group hgroup =>
    (h.getElem?_eq_some_iff.mp (Std.HashMap.mem_toList_iff_getElem?_eq_some.mp hgroup)).2
  refine List.pairwise_flatMap.mpr ⟨fun group hgroup => ?_, ?_⟩
  · rw [← hstored group hgroup]
    exact h.nodup group.1
  · refine Std.HashMap.distinct_keys_toList.imp_of_mem fun {g g'} hg hg' hne e he e' he' => ?_
    rw [← hstored g hg, h.mem_iff] at he
    rw [← hstored g' hg', h.mem_iff] at he'
    rintro rfl
    exact beq_eq_false_iff_ne.mp hne (he.2.symm.trans he'.2)

/-- The edges are listed in ascending order. -/
theorem enumerates_toList : Enumerates l.toList fun e => e ∈ recorded :=
  enumerates_sortAscending h.nodup_flatMap h.mem_flatMap_iff

/-- The edges are counted as they are stored, and each of them is stored once. -/
theorem size_eq_card : l.size = recorded.card := by
  have hset : recorded = (l.buckets.toList.flatMap (·.2)).toFinset := by
    ext e
    rw [List.mem_toFinset, h.mem_flatMap_iff]
  rw [hset, List.toFinset_card_of_nodup h.nodup_flatMap, size, Std.HashMap.fold_eq_foldl_toList,
    foldl_add_length, Nat.zero_add]

/-- The consumers are listed in ascending order. -/
theorem enumerates_consumers :
    Enumerates l.consumers fun consumer => ∃ e ∈ recorded, e.consumer = consumer := by
  refine enumerates_sortAscending Std.HashMap.nodup_keys fun consumer => ?_
  simp only [Std.HashMap.mem_keys, Std.HashMap.mem_iff_isSome_getElem?, Option.isSome_iff_exists,
    h.getElem?_eq_some_iff, ← h.mem_iff]
  constructor
  · rintro ⟨_, hne, rfl⟩
    exact List.exists_mem_of_ne_nil _ hne
  · rintro ⟨e, he⟩
    exact ⟨_, List.ne_nil_of_mem he, rfl⟩

/-- A producer is consumed if some edge has it. -/
theorem isConsumed_iff (producer : Nat) :
    l.isConsumed producer = true ↔ ∃ e ∈ recorded, e.input.producer = producer := by
  rw [isConsumed, ← Std.HashMap.any_toList, ← List.any_flatMap]
  simp only [List.any_eq_true, h.mem_flatMap_iff, decide_eq_true_eq]

end Holds

/-- After any recordings a log holds what was recorded. -/
theorem Holds.foldl_record (history : List Edge) {l : EdgeLog} {recorded : Finset Edge}
    (h : l.Holds recorded) :
    (history.foldl (fun l e => (l.record e).2) l).Holds (recorded ∪ history.toFinset) := by
  induction history generalizing l recorded with
  | nil =>
    rw [List.toFinset_nil, Finset.union_empty]
    exact h
  | cons e rest ih =>
    rw [List.toFinset_cons, Finset.union_insert, ← Finset.insert_union]
    exact ih (h.record_snd e)

/-! ## Agreement -/

/-- The log and the set answer every question alike. -/
structure Agrees (l : EdgeLog) (s : EdgeSet) : Prop where
  record : ∀ e, (l.record e).1 = (s.record e).1
  edges : l.toList = s.toList
  size : l.size = s.size
  isEmpty : l.isEmpty = s.isEmpty
  sources : ∀ consumer, l.sources consumer = s.sources consumer
  producers : ∀ consumer position, l.producers consumer position = s.producers consumer position
  consumers : l.consumers = s.consumers
  isConsumed : ∀ producer, l.isConsumed producer = s.isConsumed producer

/-- A log and a set agree if they hold the same edges. -/
theorem Holds.agrees {l : EdgeLog} {s : EdgeSet} {recorded : Finset Edge} (h : l.Holds recorded)
    (hs : s.Represents recorded) : l.Agrees s where
  record e := Bool.eq_iff_iff.mpr ((h.record_fst e).trans (hs.record e).symm)
  edges := h.enumerates_toList.unique hs.edges
  size := h.size_eq_card.trans hs.size.symm
  isEmpty := by rw [isEmpty, EdgeSet.isEmpty, h.size_eq_card, hs.size]
  sources consumer := (h.enumerates_sources consumer).unique (hs.sources consumer)
  producers consumer position :=
    (h.enumerates_producers consumer position).unique (hs.producers consumer position)
  consumers := h.enumerates_consumers.unique hs.consumers
  isConsumed producer :=
    Bool.eq_iff_iff.mpr ((h.isConsumed_iff producer).trans (hs.isConsumed producer).symm)

/-- After any sequence of recordings, a log and a set that were empty at first answer every question
alike. -/
theorem agrees_history (history : List Edge) :
    (history.foldl (fun l e => (l.record e).2) empty).Agrees
      (history.foldl (fun s e => (s.record e).2) EdgeSet.empty) := by
  have hlog := holds_empty.foldl_record history
  rw [Finset.empty_union] at hlog
  exact hlog.agrees (EdgeSet.holds_insertAll history).represents

end EdgeLog

end Provenance
