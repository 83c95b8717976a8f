import Provenance.Proofs.Grammar
import Provenance.Proofs.Partition

/-!
# Blocks are cut exactly where control can arrive

`Block.Arrives` has one rule for each reason why control can arrive at an offset of a body. A
partition cuts the body at these offsets and nowhere else (`Block.maximalPartition_of_partition`):
its blocks tile the body, a block starts wherever control can arrive, and the entries of a block are
the reasons for its start in their order. So control never arrives inside a block, and only the last
instruction of a block can be a conditional branch.
-/

namespace Provenance

namespace Block

/-! ## Reasons to arrive -/

/-- Control can arrive at an offset of a body of `length` bytes with these instructions and
clauses, for a reason. -/
inductive Arrives (instructions : List Instruction) (length : Nat) (clauses : List Clause) :
    Nat → Entry → Prop
  /-- The method starts at offset zero. -/
  | method : Arrives instructions length clauses 0 .method
  /-- A protected range starts. -/
  | tryStart {n : Nat} {c : Clause} (clause : clauses[n]? = some c) :
      Arrives instructions length clauses c.tryStart (.tryStart n)
  /-- A handler starts. -/
  | handlerStart {n : Nat} {c : Clause} (clause : clauses[n]? = some c) :
      Arrives instructions length clauses c.handlerStart (.handlerStart n)
  /-- The filter of a clause that has one starts. -/
  | filterStart {n : Nat} {c : Clause} (clause : clauses[n]? = some c) (filter : c.isFilter) :
      Arrives instructions length clauses c.filterOffset.toNat (.filterStart n)
  /-- A branch or a switch goes there. -/
  | branch {i : Instruction} {t : Nat} (mem : i ∈ instructions)
      (target : i.branchTarget? = some t ∨ t ∈ i.switchTargets) :
      Arrives instructions length clauses t (.branch i.offset)
  /-- The conditional branch just before is not taken. -/
  | fallThrough {i : Instruction} (mem : i ∈ instructions) (flow : i.flow = .conditionalBranch)
      (within : i.next < length) :
      Arrives instructions length clauses i.next (.fallThrough i.offset)

/-- Where a clause lets control arrive. -/
theorem mem_clauseEntries_iff {c : Clause} {n t : Nat} {e : Entry} :
    (t, e) ∈ clauseEntries c n ↔ (t = c.tryStart ∧ e = .tryStart n) ∨
      (t = c.handlerStart ∧ e = .handlerStart n) ∨
      (c.isFilter ∧ t = c.filterOffset.toNat ∧ e = .filterStart n) := by
  unfold clauseEntries Clause.filterStart?
  by_cases hfilter : c.isFilter <;> simp [hfilter]

/-- Where an instruction lets control arrive. -/
theorem mem_instructionEntries_iff {i : Instruction} {length t : Nat} {e : Entry} :
    (t, e) ∈ instructionEntries length i ↔ (t ∈ i.targets ∧ e = .branch i.offset) ∨
      ((i.flow = .conditionalBranch ∧ i.next < length) ∧ t = i.next ∧
        e = .fallThrough i.offset) := by
  unfold instructionEntries
  rw [List.mem_append]
  refine or_congr ?_ ?_
  · simp [eq_comm]
  · split
    · next h => simp [h]
    · next h => simp [h]

/-- What is discovered are the offsets where control can arrive, with the reasons. -/
theorem mem_discover_iff {instructions : List Instruction} {length : Nat} {clauses : List Clause}
    {t : Nat} {e : Entry} :
    (t, e) ∈ discover (inOrder instructions) length clauses ↔
      Arrives instructions length clauses t e := by
  unfold discover
  rw [List.cons_append, List.mem_cons, List.mem_append, List.mem_flatMap, List.mem_flatMap]
  constructor
  · intro h
    rcases h with h | ⟨⟨c, n⟩, hc, h⟩ | ⟨i, hi, h⟩
    · cases h
      exact .method
    · have hclause := List.mem_zipIdx_iff_getElem?.mp hc
      rcases mem_clauseEntries_iff.mp h with ⟨rfl, rfl⟩ | ⟨rfl, rfl⟩ | ⟨hfilter, rfl, rfl⟩
      · exact .tryStart hclause
      · exact .handlerStart hclause
      · exact .filterStart hclause hfilter
    · have hmem := mem_inOrder.mp hi
      rcases mem_instructionEntries_iff.mp h with ⟨ht, rfl⟩ | ⟨⟨hflow, hwithin⟩, rfl, rfl⟩
      · exact .branch hmem (Instruction.mem_targets_iff.mp ht)
      · exact .fallThrough hmem hflow hwithin
  · intro h
    cases h with
    | method => exact .inl rfl
    | tryStart hclause =>
      exact .inr (.inl ⟨(_, _), List.mem_zipIdx_iff_getElem?.mpr hclause,
        mem_clauseEntries_iff.mpr (.inl ⟨rfl, rfl⟩)⟩)
    | handlerStart hclause =>
      exact .inr (.inl ⟨(_, _), List.mem_zipIdx_iff_getElem?.mpr hclause,
        mem_clauseEntries_iff.mpr (.inr (.inl ⟨rfl, rfl⟩))⟩)
    | filterStart hclause hfilter =>
      exact .inr (.inl ⟨(_, _), List.mem_zipIdx_iff_getElem?.mpr hclause,
        mem_clauseEntries_iff.mpr (.inr (.inr ⟨hfilter, rfl, rfl⟩))⟩)
    | branch hmem ht =>
      exact .inr (.inr ⟨_, mem_inOrder.mpr hmem,
        mem_instructionEntries_iff.mpr (.inl ⟨Instruction.mem_targets_iff.mpr ht, rfl⟩)⟩)
    | fallThrough hmem hflow hwithin =>
      exact .inr (.inr ⟨_, mem_inOrder.mpr hmem,
        mem_instructionEntries_iff.mpr (.inr ⟨⟨hflow, hwithin⟩, rfl, rfl⟩)⟩)

/-! ## The partition at these offsets -/

/-- Blocks are what cutting a body of `length` bytes wherever control can arrive, and nowhere else,
gives. -/
structure MaximalPartition (instructions : List Instruction) (length : Nat) (clauses : List Clause)
    (blocks : List Block) : Prop where
  /-- The blocks tile the body. -/
  ascending : blocks.Pairwise (·.start < ·.start)
  first : blocks.head?.map start = some 0
  adjacent : blocks.IsChain (·.stop = ·.start)
  last : blocks.getLast?.map stop = some length
  /-- They hold the given instructions in the order of their offsets. -/
  nonempty : ∀ b ∈ blocks, b.instructions ≠ []
  perm : (blocks.flatMap Block.instructions).Perm instructions
  ordered : (blocks.flatMap Block.instructions).Pairwise (·.offset < ·.offset)
  /-- A block starts exactly where control can arrive. -/
  starts : ∀ t, (∃ b ∈ blocks, b.start = t) ↔ ∃ e, Arrives instructions length clauses t e
  /-- The entries of a block are the reasons to arrive at its start, in ascending order. -/
  entries : ∀ b ∈ blocks, ∀ e, e ∈ b.entries ↔ Arrives instructions length clauses b.start e
  entries_ascending : ∀ b ∈ blocks, b.entries.Pairwise (· < ·)
  /-- Control does not arrive inside a block, and only its last instruction can be a conditional
  branch. -/
  inside : ∀ b ∈ blocks, ∀ i ∈ b.tail, ∀ e, ¬ Arrives instructions length clauses i.offset e
  straight : ∀ b ∈ blocks, ∀ i ∈ b.instructions.dropLast, i.flow ≠ .conditionalBranch

section

variable {is : List Instruction} {entries : Grouping Entry}

/-- A block that is not the first one has an entry. -/
theorem entries_ne_nil_of_cut_eq_cons {first : Block} {rest : List Block}
    (hcut : cut is entries = first :: rest) {b : Block} (hb : b ∈ rest) :
    entries.group b.start ≠ [] := by
  have hchain := List.isChain_getLast_head_splitBy
    (fun _ i => (entries.group i.offset).isEmpty) is
  rw [← map_instructions_cut, List.isChain_map, hcut] at hchain
  obtain ⟨c, -, _, _, hc⟩ := exists_before_of_isChain hchain b hb
  intro hnil
  exact Bool.noConfusion (hc.symm.trans (List.isEmpty_iff.mpr hnil))

end

section

variable {instructions : List Instruction} {length : Nat} {clauses : List Clause}
variable {blocks : Array Block}

/-- The instructions of a partition are neighbours from offset zero to the end of the body. -/
theorem isChain_inOrder (h : partition instructions length clauses = .ok blocks) :
    (inOrder instructions).IsChain (·.next = ·.offset) ∧
      (∀ i ∈ (inOrder instructions).head?, i.offset = 0) ∧
      ∀ i ∈ (inOrder instructions).getLast?, i.next = length :=
  tile_isChain (partition_eq_ok_iff.mp h).2.2.1

/-- The blocks of a partition hold the ordered instructions. -/
theorem flatMap_instructions_of_partition
    (h : partition instructions length clauses = .ok blocks) :
    blocks.toList.flatMap Block.instructions = inOrder instructions := by
  obtain ⟨-, -, -, -, rfl⟩ := partition_eq_ok_iff.mp h
  exact flatMap_instructions_cut ..

/-- A partition has a first block, which starts at offset zero. -/
theorem head?_of_partition (h : partition instructions length clauses = .ok blocks) :
    blocks.toList.head?.map start = some 0 := by
  have hflat := flatMap_instructions_of_partition h
  obtain ⟨-, hfirst, -⟩ := isChain_inOrder h
  have hne := (partition_eq_ok_iff.mp h).1
  rw [← hflat] at hfirst
  cases hblocks : blocks.toList with
  | nil =>
    rw [hblocks, List.flatMap_nil, inOrder] at hflat
    exact absurd (List.perm_nil.mp (hflat ▸ (List.mergeSort_perm ..).symm)) hne
  | cons b rest =>
    rw [hblocks] at hfirst
    exact congrArg some (hfirst b.head rfl)

/-- The last block of a partition stops at the end of the body. -/
theorem getLast?_of_partition (h : partition instructions length clauses = .ok blocks) :
    blocks.toList.getLast?.map stop = some length := by
  have hhead := head?_of_partition h
  obtain ⟨-, -, hlast⟩ := isChain_inOrder h
  rw [← flatMap_instructions_of_partition h, getLast?_flatMap_instructions] at hlast
  cases hblocks : blocks.toList.getLast? with
  | none =>
    rw [List.getLast?_eq_none_iff.mp hblocks] at hhead
    cases hhead
  | some b =>
    rw [hblocks] at hlast
    exact congrArg some (hlast b.last rfl)

/-- The blocks of a partition are neighbours, and so are the instructions of each of them. -/
theorem isChain_of_partition (h : partition instructions length clauses = .ok blocks) :
    (∀ b ∈ blocks, b.instructions.IsChain (·.next = ·.offset)) ∧
      blocks.toList.IsChain (·.stop = ·.start) := by
  obtain ⟨hchain, -, -⟩ := isChain_inOrder h
  obtain ⟨-, -, -, -, rfl⟩ := partition_eq_ok_iff.mp h
  obtain ⟨hinside, hbetween⟩ := isChain_cut hchain
  exact ⟨fun b hb => hinside b (List.mem_toArray.mp hb), hbetween⟩

/-- A block of a partition has the reasons to arrive at its start. -/
theorem mem_entries_iff_arrives (h : partition instructions length clauses = .ok blocks) {b : Block}
    (hb : b ∈ blocks) {e : Entry} :
    e ∈ b.entries ↔ Arrives instructions length clauses b.start e := by
  rw [mem_entries_iff h hb, mem_discover_iff]

/-- The entries of a block of a partition ascend. -/
theorem pairwise_entries (h : partition instructions length clauses = .ok blocks) {b : Block}
    (hb : b ∈ blocks) : b.entries.Pairwise (· < ·) := by
  obtain ⟨-, -, -, -, rfl⟩ := partition_eq_ok_iff.mp h
  rw [entries_of_mem_cut (List.mem_toArray.mp hb)]
  exact Grouping.pairwise_group_ofList ..

/-- Control can arrive where a block of a partition starts. -/
theorem exists_arrives_start (h : partition instructions length clauses = .ok blocks) {b : Block}
    (hb : b ∈ blocks) : ∃ e, Arrives instructions length clauses b.start e := by
  have hhead := head?_of_partition h
  cases hblocks : blocks.toList with
  | nil =>
    rw [hblocks] at hhead
    cases hhead
  | cons first rest =>
    rw [hblocks] at hhead
    rcases List.mem_cons.mp (hblocks ▸ Array.mem_toList_iff.mpr hb) with rfl | htail
    · rw [Option.some.inj hhead]
      exact ⟨_, .method⟩
    · -- Every later block was cut off because something enters there.
      obtain ⟨-, -, -, -, rfl⟩ := partition_eq_ok_iff.mp h
      obtain ⟨e, he⟩ :=
        List.exists_mem_of_ne_nil _ (entries_ne_nil_of_cut_eq_cons hblocks htail)
      exact ⟨e, mem_discover_iff.mp (Grouping.mem_group_ofList.mp he)⟩

/-- Control cannot arrive inside a block of a partition. -/
theorem not_arrives_of_mem_tail (h : partition instructions length clauses = .ok blocks) {b : Block}
    (hb : b ∈ blocks) {i : Instruction} (hi : i ∈ b.tail) (e : Entry) :
    ¬ Arrives instructions length clauses i.offset e := by
  intro harrives
  obtain ⟨-, -, -, -, rfl⟩ := partition_eq_ok_iff.mp h
  have hnil := group_eq_nil_of_mem_tail (List.mem_toArray.mp hb) hi
  have hmem := Grouping.mem_group_ofList.mpr (mem_discover_iff.mpr harrives)
  rw [hnil] at hmem
  cases hmem

variable (pos : ∀ i ∈ instructions, 0 < i.size)

include pos

/-- An instruction of a partition starts before the end of the body. -/
theorem offset_lt_of_mem_partition (h : partition instructions length clauses = .ok blocks)
    {i : Instruction} (hi : i ∈ instructions) : i.offset < length := by
  have hpos : ∀ j ∈ inOrder instructions, 0 < j.size := fun j hj => pos j (mem_inOrder.mp hj)
  obtain ⟨-, hbounds⟩ := tile_pairwise (partition_eq_ok_iff.mp h).2.2.1 hpos
  have hnext := (hbounds i (mem_inOrder.mpr hi)).2
  have hsize := pos i hi
  unfold Instruction.next at hnext
  omega

/-- Only the last instruction of a block is a conditional branch. -/
theorem flow_ne_of_mem_dropLast (h : partition instructions length clauses = .ok blocks) {b : Block}
    (hb : b ∈ blocks) {i : Instruction} (hi : i ∈ b.instructions.dropLast) :
    i.flow ≠ .conditionalBranch := by
  intro hflow
  obtain ⟨j, hj, hnext⟩ := exists_after_of_isChain ((isChain_of_partition h).1 b hb) i hi
  have hmem : i ∈ instructions := mem_of_mem_partition h hb (List.dropLast_subset _ hi)
  have hwithin : i.next < length := by
    rw [hnext]
    exact offset_lt_of_mem_partition pos h (mem_of_mem_partition h hb (List.mem_cons_of_mem _ hj))
  -- The instruction after it would be one where control arrives.
  have harrives : Arrives instructions length clauses i.next (.fallThrough i.offset) :=
    .fallThrough hmem hflow hwithin
  rw [hnext] at harrives
  exact not_arrives_of_mem_tail h hb hj _ harrives

end

/-- A partition cuts a body exactly where control can arrive: whenever instructions that were read,
given in any order, have a partition, it is the maximal one at these offsets. -/
theorem maximalPartition_of_partition {instructions : List Instruction} {length : Nat}
    {clauses : List Clause} {blocks : Array Block} (hread : ∀ i ∈ instructions, i.Decoded)
    (h : partition instructions length clauses = .ok blocks) :
    MaximalPartition instructions length clauses blocks.toList := by
  have pos : ∀ i ∈ instructions, 0 < i.size := fun i hi => (hread i hi).size_pos
  have hflat := flatMap_instructions_of_partition h
  exact {
    ascending := ascending_of_partition pos h
    first := head?_of_partition h
    adjacent := (isChain_of_partition h).2
    last := getLast?_of_partition h
    nonempty := fun b _ => List.cons_ne_nil _ _
    perm := hflat ▸ List.mergeSort_perm ..
    ordered := hflat ▸ pairwise_inOrder pos h
    starts := by
      intro t
      constructor
      · rintro ⟨b, hb, rfl⟩
        exact exists_arrives_start h (Array.mem_toList_iff.mp hb)
      · rintro ⟨e, he⟩
        obtain ⟨b, hb, hstart⟩ := exists_start_of_mem_discover pos h (mem_discover_iff.mpr he)
        exact ⟨b, Array.mem_toList_iff.mpr hb, hstart⟩
    entries := fun b hb e => mem_entries_iff_arrives h (Array.mem_toList_iff.mp hb)
    entries_ascending := fun b hb => pairwise_entries h (Array.mem_toList_iff.mp hb)
    inside := fun b hb i hi e => not_arrives_of_mem_tail h (Array.mem_toList_iff.mp hb) hi e
    straight := fun b hb i hi => flow_ne_of_mem_dropLast pos h (Array.mem_toList_iff.mp hb) hi }

/-- A loop whose body is protected by a finally and by a filter clause can be read, and its
instructions have a partition when they are given in descending order. -/
theorem exists_partition_guardedLoop :
    ∃ is blocks,
      Body.decode Body.guardedLoop = .ok is ∧
      partition is.reverse 8 [Body.loopFinally, Body.loopFilter] = .ok blocks := by
  have hok : ((Body.decode Body.guardedLoop).bind fun is =>
      partition is.reverse 8 [Body.loopFinally, Body.loopFilter]).isOk := by cbv
  exact exists_of_isOk_bind hok

/-- The partition of the loop is the maximal one. -/
theorem maximalPartition_guarded_loop :
    ∃ is blocks,
      Body.decode Body.guardedLoop = .ok is ∧
      partition is.reverse 8 [Body.loopFinally, Body.loopFilter] = .ok blocks ∧
      MaximalPartition is.reverse 8 [Body.loopFinally, Body.loopFilter] blocks.toList := by
  obtain ⟨is, blocks, hread, hblocks⟩ := exists_partition_guardedLoop
  refine ⟨is, blocks, hread, hblocks, maximalPartition_of_partition (fun i hi => ?_) hblocks⟩
  exact Body.decoded_of_mem hread (List.mem_reverse.mp hi)

end Block

end Provenance
