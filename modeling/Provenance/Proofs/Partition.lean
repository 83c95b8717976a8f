import Mathlib.Data.List.Permutation
import Mathlib.Data.List.SplitBy
import Provenance.Block.Partition
import Provenance.Proofs.Bisect
import Provenance.Proofs.Grouping

/-!
# What a partition into blocks guarantees

`Block.partition_eq_ok_iff` says when a body has a partition and what it is. The blocks of a
partition are the given instructions in the order of their offsets, cut into stretches
(`Block.flatMap_instructions_cut`), their starts ascend (`Block.ascending_of_partition`), and every
offset at which control can enter starts one of them (`Block.exists_start_of_mem_discover`). In
particular a block starts at every branch target and exactly one block is the method's entry.
-/

namespace Provenance

/-! ## The order of entries -/

namespace Entry

/-- Entries with the same place in the order are the same. -/
theorem rank_injective : Function.Injective rank := by
  intro a b h
  cases a <;> cases b <;> simp_all [rank]

/-- The order of entries is that of their places. -/
theorem lt_iff {a b : Entry} :
    a < b ↔ a.rank.1 < b.rank.1 ∨ (a.rank.1 = b.rank.1 ∧ a.rank.2 < b.rank.2) :=
  Iff.rfl

instance : Std.Trichotomous (α := Entry) (· < ·) where
  trichotomous a b hab hba := by
    rw [lt_iff] at hab hba
    exact rank_injective (Prod.ext (by omega) (by omega))

instance : Trans (α := Entry) (· < ·) (· < ·) (· < ·) where
  trans hab hbc := by
    rw [lt_iff] at hab hbc ⊢
    omega

end Entry

/-! ## Neighbours in a chain -/

section

variable {α : Type} {R : α → α → Prop}

/-- In a chain every element after the first has a neighbour before it. -/
theorem exists_before_of_isChain : ∀ {l : List α} {a : α}, (a :: l).IsChain R → ∀ b ∈ l,
    ∃ c ∈ a :: l, R c b
  | [], _, _, _, hb => nomatch hb
  | c :: rest, a, h, b, hb => by
    obtain ⟨hac, hrest⟩ := List.isChain_cons_cons.mp h
    rcases List.mem_cons.mp hb with rfl | hb
    · exact ⟨a, List.mem_cons_self .., hac⟩
    · obtain ⟨d, hd, hdb⟩ := exists_before_of_isChain hrest b hb
      exact ⟨d, List.mem_cons_of_mem _ hd, hdb⟩

/-- In a chain every element before the last has a neighbour after it. -/
theorem exists_after_of_isChain : ∀ {l : List α} {a : α}, (a :: l).IsChain R →
    ∀ b ∈ (a :: l).dropLast, ∃ c ∈ l, R b c
  | [], _, _, _, hb => nomatch hb
  | c :: rest, a, h, b, hb => by
    obtain ⟨hac, hrest⟩ := List.isChain_cons_cons.mp h
    rw [List.dropLast_cons_cons] at hb
    rcases List.mem_cons.mp hb with rfl | hb
    · exact ⟨c, List.mem_cons_self .., hac⟩
    · obtain ⟨d, hd, hbd⟩ := exists_after_of_isChain hrest b hb
      exact ⟨d, List.mem_cons_of_mem _ hd, hbd⟩

end

namespace Block

/-! ## Tiling -/

/-- Instructions tile a range exactly if the first starts where the range does and the others tile
what follows it. -/
theorem tile_cons {expected stop : Nat} {i : Instruction} {rest : List Instruction} :
    tile expected (i :: rest) = .ok stop ↔ i.offset = expected ∧ tile i.next rest = .ok stop := by
  rw [tile]
  split
  · next h => exact (and_iff_right h).symm
  · next h => exact ⟨nofun, fun hr => absurd hr.1 h⟩

/-- Instructions that tile a range lie in it one after the other. -/
theorem tile_pairwise {is : List Instruction} {expected stop : Nat}
    (h : tile expected is = .ok stop) (pos : ∀ i ∈ is, 0 < i.size) :
    is.Pairwise (·.offset < ·.offset) ∧ ∀ i ∈ is, expected ≤ i.offset ∧ i.next ≤ stop := by
  induction is generalizing expected with
  | nil => exact ⟨.nil, fun _ hi => nomatch hi⟩
  | cons i rest ih =>
    obtain ⟨hi, hrest⟩ := tile_cons.mp h
    obtain ⟨hpair, hbounds⟩ := ih hrest fun j hj => pos j (List.mem_cons_of_mem _ hj)
    have hnext : i.offset < i.next := Nat.lt_add_of_pos_right (pos i (List.mem_cons_self ..))
    have hle : i.next ≤ stop := by
      cases rest with
      | nil => cases hrest; exact Nat.le_refl _
      | cons j _ =>
        obtain ⟨hlow, hhigh⟩ := hbounds j (List.mem_cons_self ..)
        exact Nat.le_trans hlow (Nat.le_trans (Nat.le_add_right ..) hhigh)
    refine ⟨List.pairwise_cons.mpr ⟨fun j hj => ?_, hpair⟩, fun j hj => ?_⟩
    · exact Nat.lt_of_lt_of_le hnext (hbounds j hj).1
    · rcases List.mem_cons.mp hj with rfl | hj
      · exact ⟨Nat.le_of_eq hi.symm, hle⟩
      · exact ⟨by have := (hbounds j hj).1; omega, (hbounds j hj).2⟩

/-- Instructions that tile a range are neighbours, the first of which starts where the range does
and the last of which ends where it does. -/
theorem tile_isChain {is : List Instruction} {expected stop : Nat}
    (h : tile expected is = .ok stop) :
    is.IsChain (·.next = ·.offset) ∧ (∀ i ∈ is.head?, i.offset = expected) ∧
      ∀ i ∈ is.getLast?, i.next = stop := by
  induction is generalizing expected with
  | nil => exact ⟨.nil, by simp, by simp⟩
  | cons i rest ih =>
    obtain ⟨hi, hrest⟩ := tile_cons.mp h
    obtain ⟨hchain, hhead, hlast⟩ := ih hrest
    have hfirst : ∀ j ∈ (i :: rest).head?, j.offset = expected := by
      intro j hj
      cases hj
      exact hi
    cases rest with
    | nil =>
      refine ⟨.singleton _, hfirst, fun j hj => ?_⟩
      cases hj
      exact Except.ok.inj hrest
    | cons j rest =>
      refine ⟨List.isChain_cons_cons.mpr ⟨(hhead j rfl).symm, hchain⟩, hfirst, fun k hk => ?_⟩
      rw [List.getLast?_cons_cons] at hk
      exact hlast k hk

/-! ## Cutting -/

section

variable {is : List Instruction} {entries : Grouping Entry}

/-- The stretches of instructions that become blocks. -/
theorem map_instructions_cut :
    (cut is entries).map instructions = is.splitBy fun _ i => (entries.group i.offset).isEmpty := by
  have hne := List.nil_notMem_splitBy (fun _ i => (entries.group i.offset).isEmpty) is
  rw [cut]
  -- a stretch is never empty, so none of them is dropped
  generalize is.splitBy (fun _ i => (entries.group i.offset).isEmpty) = groups at hne
  induction groups with
  | nil => rfl
  | cons group rest ih =>
    rw [List.mem_cons, not_or] at hne
    cases group with
    | nil => exact absurd rfl hne.1
    | cons i tail =>
      simp only [List.filterMap_cons, List.map_cons, ih hne.2]
      rfl

variable (is entries) in
/-- Cutting loses no instruction and keeps their order. -/
theorem flatMap_instructions_cut : (cut is entries).flatMap instructions = is := by
  rw [List.flatMap_def, map_instructions_cut, List.flatten_splitBy]

/-- A block has the entries at its start. -/
theorem entries_of_mem_cut {b : Block} (hb : b ∈ cut is entries) :
    b.entries = entries.group b.start := by
  obtain ⟨group, -, hgroup⟩ := List.mem_filterMap.mp hb
  cases group with
  | nil => cases hgroup
  | cons i rest => cases hgroup; rfl

/-- Control enters a block at its first instruction only. -/
theorem group_eq_nil_of_mem_tail {b : Block} (hb : b ∈ cut is entries) {i : Instruction}
    (hi : i ∈ b.tail) : entries.group i.offset = [] := by
  have hmem : b.instructions ∈ is.splitBy fun _ i => (entries.group i.offset).isEmpty :=
    map_instructions_cut ▸ List.mem_map_of_mem hb
  have hchain := List.isChain_of_mem_splitBy hmem
  obtain ⟨_, -, hempty⟩ := exists_before_of_isChain hchain i hi
  exact List.isEmpty_iff.mp hempty

/-- A block starts at every instruction that control can enter. -/
theorem exists_start_of_group_ne_nil {i : Instruction} (hi : i ∈ is)
    (hne : entries.group i.offset ≠ []) : ∃ b ∈ cut is entries, b.start = i.offset := by
  rw [← flatMap_instructions_cut is entries] at hi
  obtain ⟨b, hb, hib⟩ := List.mem_flatMap.mp hi
  rcases List.mem_cons.mp hib with rfl | htail
  · exact ⟨b, hb, rfl⟩
  · exact absurd (group_eq_nil_of_mem_tail hb htail) hne

/-- The instructions of a block are among those that were cut. -/
theorem mem_of_mem_cut {b : Block} (hb : b ∈ cut is entries) {i : Instruction}
    (hi : i ∈ b.instructions) : i ∈ is := by
  rw [← flatMap_instructions_cut is entries]
  exact List.mem_flatMap.mpr ⟨b, hb, hi⟩

/-- Blocks cut from instructions in ascending order are in ascending order. -/
theorem pairwise_start_cut (h : is.Pairwise (·.offset < ·.offset)) :
    (cut is entries).Pairwise (·.start < ·.start) := by
  rw [← flatMap_instructions_cut is entries, List.pairwise_flatMap] at h
  exact h.2.imp fun hab => hab _ (List.mem_cons_self ..) _ (List.mem_cons_self ..)

end

/-- The last instruction of a block is one of its instructions. -/
theorem last_mem_instructions (b : Block) : b.last ∈ b.instructions := by
  rw [last, List.getLastD_eq_getLast?]
  cases h : b.tail.getLast? with
  | none => exact List.mem_cons_self ..
  | some i => exact List.mem_cons_of_mem _ (List.mem_of_getLast? h)

/-- The last instruction of a block, as the last element of a list. -/
theorem getLast?_instructions (b : Block) : b.instructions.getLast? = some b.last := by
  rw [instructions, List.getLast?_cons, last, List.getLastD_eq_getLast?]

/-- Neighbours among the instructions of some blocks are neighbours in a block, or one ends a block
and the other starts the next. -/
theorem isChain_flatMap_instructions {R : Instruction → Instruction → Prop} {bs : List Block} :
    (bs.flatMap instructions).IsChain R ↔
      (∀ b ∈ bs, b.instructions.IsChain R) ∧ bs.IsChain fun a b => R a.last b.head := by
  have hne : [] ∉ bs.map instructions := by
    intro hmem
    obtain ⟨b, -, hb⟩ := List.mem_map.mp hmem
    exact List.cons_ne_nil _ _ hb
  rw [List.flatMap_def, List.isChain_flatten hne, List.forall_mem_map, List.isChain_map]
  refine and_congr_right fun _ => List.IsChain.iff fun a b => ⟨fun hab => ?_, fun hab => ?_⟩
  · exact hab _ (getLast?_instructions a) _ rfl
  · intro i hi j hj
    rw [Option.mem_def, getLast?_instructions] at hi
    cases hi
    cases hj
    exact hab

/-- The last instruction of a sequence of blocks is that of the last block. -/
theorem getLast?_flatMap_instructions (bs : List Block) :
    (bs.flatMap instructions).getLast? = bs.getLast?.map last := by
  rcases List.eq_nil_or_concat bs with rfl | ⟨init, b, rfl⟩
  · rfl
  · rw [List.concat_eq_append, List.flatMap_append, List.flatMap_singleton, List.getLast?_append,
      getLast?_instructions, List.getLast?_concat]
    rfl

/-- Neighbours among the instructions are neighbours in a block, or one ends a block and the other
starts the next. -/
theorem isChain_cut {is : List Instruction} {entries : Grouping Entry}
    {R : Instruction → Instruction → Prop} (h : is.IsChain R) :
    (∀ b ∈ cut is entries, b.instructions.IsChain R) ∧
      (cut is entries).IsChain fun a b => R a.last b.head := by
  rwa [← isChain_flatMap_instructions, flatMap_instructions_cut]

/-! ## Boundaries -/

/-- Blocks that stop where the next one starts, and the last one at the end of the body, are all
closed. -/
theorem unclosed?_eq_none {length : Nat} {bs : List Block} (hchain : bs.IsChain (·.stop = ·.start))
    (hlast : ∀ b ∈ bs.getLast?, b.stop = length) : unclosed? length bs = none := by
  induction bs with
  | nil => rfl
  | cons b rest ih =>
    cases rest with
    | nil => simp [unclosed?, hlast b rfl]
    | cons c rest =>
      obtain ⟨hbc, hrest⟩ := List.isChain_cons_cons.mp hchain
      rw [List.getLast?_cons_cons] at hlast
      have hboundary : ((c :: rest).head?.map start).getD length = c.start := rfl
      rw [unclosed?, hboundary, if_pos hbc]
      exact ih hrest hlast

/-- Wherever instructions that tile a body are cut, the blocks are closed. -/
theorem unclosed?_cut {is : List Instruction} {length : Nat} (h : tile 0 is = .ok length)
    (entries : Grouping Entry) : unclosed? length (cut is entries) = none := by
  obtain ⟨hchain, -, hlast⟩ := tile_isChain h
  refine unclosed?_eq_none (isChain_cut hchain).2 fun b hb => hlast b.last ?_
  rw [← flatMap_instructions_cut is entries, getLast?_flatMap_instructions, Option.mem_def.mp hb]
  rfl

/-! ## Partitions -/

/-- Instructions in the order of their offsets. -/
def inOrder (instructions : List Instruction) : List Instruction :=
  instructions.mergeSort fun i j => i.offset ≤ j.offset

/-- Ordering instructions rearranges them. -/
theorem inOrder_perm (instructions : List Instruction) : (inOrder instructions).Perm instructions :=
  List.mergeSort_perm ..

/-- Ordering instructions loses none and adds none. -/
theorem mem_inOrder {instructions : List Instruction} {i : Instruction} :
    i ∈ inOrder instructions ↔ i ∈ instructions :=
  List.mem_mergeSort

/-- The partition as a chain of checks. -/
theorem partition_eq (instructions : List Instruction) (length : Nat) (clauses : List Clause) :
    let entries := discover (inOrder instructions) length clauses
    partition instructions length clauses =
      if instructions.isEmpty || length = 0 then .error .empty
      else (tile 0 (inOrder instructions)).bind fun stop =>
        if stop ≠ length then .error (.malformed (.wrongLength stop length))
        else
          match entries.find? fun entry =>
            !(Bisect.find? Instruction.offset (inOrder instructions).toArray entry.1).isSome with
          | some (offset, entry) => .error (.malformed (.notInstructionStart offset entry))
          | none =>
            match unclosed? length (cut (inOrder instructions) (.ofList entries)) with
            | some (start, boundary) => .error (.malformed (.openBlock start boundary))
            | none => .ok (cut (inOrder instructions) (.ofList entries)).toArray := by
  unfold partition
  split <;> rfl

/-- A body has a partition exactly if there is something to partition, the instructions tile the
body, and one of them starts wherever control can enter; the partition then cuts them there. -/
theorem partition_eq_ok_iff {instructions : List Instruction} {length : Nat}
    {clauses : List Clause} {blocks : Array Block} :
    partition instructions length clauses = .ok blocks ↔
      instructions ≠ [] ∧ length ≠ 0 ∧ tile 0 (inOrder instructions) = .ok length ∧
      (∀ entry ∈ discover (inOrder instructions) length clauses,
        (Bisect.find? Instruction.offset (inOrder instructions).toArray entry.1).isSome) ∧
      blocks = (cut (inOrder instructions)
        (.ofList (discover (inOrder instructions) length clauses))).toArray := by
  rw [partition_eq]
  split
  · next hempty =>
    simp only [Bool.or_eq_true, List.isEmpty_iff, decide_eq_true_eq] at hempty
    exact ⟨nofun, fun h => absurd hempty (not_or.mpr ⟨h.1, h.2.1⟩)⟩
  next hempty =>
  simp only [Bool.or_eq_true, List.isEmpty_iff, decide_eq_true_eq, not_or] at hempty
  cases htile : tile 0 (inOrder instructions) with
  | error e => exact ⟨nofun, fun h => nomatch h.2.2.1⟩
  | ok stop =>
    simp only [Except.bind]
    split
    · next hstop => exact ⟨nofun, fun h => absurd (Except.ok.inj h.2.2.1) hstop⟩
    next hstop =>
    rw [not_not] at hstop
    subst hstop
    split
    · next hfind =>
      refine ⟨nofun, fun h => ?_⟩
      have hsome := h.2.2.2.1 _ (List.mem_of_find?_eq_some hfind)
      have hnone := List.find?_some hfind
      rw [hsome] at hnone
      cases hnone
    · next hfind =>
      simp only [List.find?_eq_none, Bool.not_eq_true, Bool.not_eq_false'] at hfind
      rw [unclosed?_cut htile]
      dsimp only
      rw [Except.ok.injEq, eq_comm]
      exact ⟨fun h => ⟨hempty.1, hempty.2, rfl, hfind, h⟩, fun h => h.2.2.2.2⟩

section

variable {instructions : List Instruction} {length : Nat} {clauses : List Clause}
variable {blocks : Array Block}

/-- The blocks of a partition hold instructions that were given. -/
theorem mem_of_mem_partition (h : partition instructions length clauses = .ok blocks) {b : Block}
    (hb : b ∈ blocks) {i : Instruction} (hi : i ∈ b.instructions) : i ∈ instructions := by
  obtain ⟨-, -, -, -, rfl⟩ := partition_eq_ok_iff.mp h
  exact mem_inOrder.mp (mem_of_mem_cut (List.mem_toArray.mp hb) hi)

/-- The blocks of a partition have the entries that were discovered at their start. -/
theorem mem_entries_iff (h : partition instructions length clauses = .ok blocks) {b : Block}
    (hb : b ∈ blocks) {entry : Entry} :
    entry ∈ b.entries ↔ (b.start, entry) ∈ discover (inOrder instructions) length clauses := by
  obtain ⟨-, -, -, -, rfl⟩ := partition_eq_ok_iff.mp h
  rw [entries_of_mem_cut (List.mem_toArray.mp hb), Grouping.mem_group_ofList]

/-- The method is entered at offset zero, so the block that starts there is its entry. -/
theorem isEntry_iff (h : partition instructions length clauses = .ok blocks) {b : Block}
    (hb : b ∈ blocks) : b.isEntry ↔ b.start = 0 := by
  rw [isEntry, List.contains_iff_mem, mem_entries_iff h hb, discover]
  simp only [List.cons_append, List.mem_cons, Prod.mk.injEq, and_true, List.mem_append,
    List.mem_flatMap]
  refine or_iff_left ?_
  rintro (⟨clause, -, hclause⟩ | ⟨i, -, hi⟩)
  · simp [clauseEntries] at hclause
  · simp [instructionEntries] at hi

variable (pos : ∀ i ∈ instructions, 0 < i.size)

include pos

/-- The ordered instructions of a partition ascend. -/
theorem pairwise_inOrder (h : partition instructions length clauses = .ok blocks) :
    (inOrder instructions).Pairwise (·.offset < ·.offset) :=
  (tile_pairwise (partition_eq_ok_iff.mp h).2.2.1 fun i hi => pos i (mem_inOrder.mp hi)).1

/-- The blocks of a partition ascend. -/
theorem ascending_of_partition (h : partition instructions length clauses = .ok blocks) :
    Bisect.Ascending start blocks := by
  have hpair := pairwise_inOrder pos h
  obtain ⟨-, -, -, -, rfl⟩ := partition_eq_ok_iff.mp h
  exact pairwise_start_cut hpair

/-- In a partition, a look-up finds the blocks that start at an offset. -/
theorem find?_eq_some_iff (h : partition instructions length clauses = .ok blocks) {t : Nat}
    {b : Block} : find? blocks t = some b ↔ b ∈ blocks ∧ b.start = t :=
  Bisect.find?_eq_some_iff (ascending_of_partition pos h)

/-- A block of the partition starts wherever control can enter. -/
theorem exists_start_of_mem_discover (h : partition instructions length clauses = .ok blocks)
    {t : Nat} {e : Entry} (he : (t, e) ∈ discover (inOrder instructions) length clauses) :
    ∃ b ∈ blocks, b.start = t := by
  have hpair := pairwise_inOrder pos h
  obtain ⟨-, -, -, hstarts, rfl⟩ := partition_eq_ok_iff.mp h
  obtain ⟨i, hi, rfl⟩ := (Bisect.isSome_find?_iff hpair).mp (hstarts _ he)
  obtain ⟨b, hb, hstart⟩ := exists_start_of_group_ne_nil (List.mem_toArray.mp hi)
    (List.ne_nil_of_mem (Grouping.mem_group_ofList.mpr he))
  exact ⟨b, List.mem_toArray.mpr hb, hstart⟩

/-- A block of the partition starts at every branch target. -/
theorem exists_start_of_mem_targets (h : partition instructions length clauses = .ok blocks)
    {b : Block} (hb : b ∈ blocks) {i : Instruction} (hi : i ∈ b.instructions) {t : Nat}
    (ht : t ∈ i.targets) : ∃ b' ∈ blocks, b'.start = t := by
  refine exists_start_of_mem_discover pos h (e := .branch i.offset) ?_
  refine List.mem_append_right _ (List.mem_flatMap.mpr ⟨i, ?_, ?_⟩)
  · exact mem_inOrder.mpr (mem_of_mem_partition h hb hi)
  · exact List.mem_append_left _ (List.mem_map.mpr ⟨t, ht, rfl⟩)

/-- A block of the partition starts at offset zero. -/
theorem exists_start_zero (h : partition instructions length clauses = .ok blocks) :
    ∃ b ∈ blocks, b.start = 0 :=
  exists_start_of_mem_discover pos h (e := .method) (List.mem_cons_self ..)

end

end Block

/-! ## Some bodies

Bodies to which theorems about decoding and partitions are applied. -/

namespace Body

/-- A method that adds its arguments and returns the sum. -/
def sum : List UInt8 :=
  [0x02, 0x03, 0x58, 0x2A]

/-- A method that tests its argument until the test fails. -/
def loop : List UInt8 :=
  [0x02, 0x2D, 0xFD, 0x2A]

/-- A method that returns one of two constants, as its argument tells. -/
def choice : List UInt8 :=
  [0x02, 0x2D, 0x03, 0x16, 0x2B, 0x01, 0x17, 0x2A]

/-- A loop around a range that is left over a handler. -/
def guardedLoop : List UInt8 :=
  [0x00, 0xDE, 0x01, 0xDC, 0x02, 0x2D, 0xF9, 0x2A]

/-- The clause that makes it a finally handler. -/
def loopFinally : Clause :=
  ⟨2, 0, 3, 3, 1, 0⟩

/-- A filter clause that protects the handler too. -/
def loopFilter : Clause :=
  ⟨1, 0, 4, 5, 2, 4⟩

end Body

end Provenance
