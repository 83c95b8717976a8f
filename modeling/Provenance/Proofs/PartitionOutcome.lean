import Provenance.Proofs.Boundaries

/-!
# Which bodies have a partition

A body has a partition exactly if its instructions tile it and one of them starts at every boundary
that its clauses and branches name (`Block.partition_outcome`). Every other body that is not empty is
refused as malformed, for one of three reasons: a gap, a wrong length, or a boundary inside an
instruction (`Block.partition_ends`). Two checks never fail: a conditional branch of a body that is
tiled falls through to an instruction, and blocks that are cut from a tiling leave no space between
them.

The outcome does not depend on the order in which the instructions of one body are given, nor does
it change when the blocks are partitioned again (`Block.partition_orderless`).
-/

namespace Provenance

namespace Block

/-! ## Tilings -/

/-- Instructions in ascending order follow one another from offset zero to the end of a body of
`length` bytes. -/
structure Tiling (ordered : List Instruction) (length : Nat) : Prop where
  ascending : ordered.Pairwise (·.offset < ·.offset)
  first : ordered.head?.map Instruction.offset = some 0
  adjacent : ordered.IsChain (·.next = ·.offset)
  last : ordered.getLast?.map Instruction.next = some length

/-- Instructions, given in any order, tile a body of `length` bytes. -/
def Tiles (instructions : List Instruction) (length : Nat) : Prop :=
  ∃ ordered, ordered.Perm instructions ∧ Tiling ordered length

/-- Neighbours tile the range from the start of the first to the end of the last. -/
theorem tile_eq_ok_of_isChain {is : List Instruction} {expected stop : Nat}
    (hchain : is.IsChain (·.next = ·.offset))
    (hfirst : is.head?.map Instruction.offset = some expected)
    (hlast : is.getLast?.map Instruction.next = some stop) : tile expected is = .ok stop := by
  induction is generalizing expected with
  | nil => cases hfirst
  | cons i rest ih =>
    refine tile_cons.mpr ⟨Option.some.inj hfirst, ?_⟩
    cases rest with
    | nil => exact congrArg Except.ok (Option.some.inj hlast)
    | cons j rest =>
      obtain ⟨hij, hrest⟩ := List.isChain_cons_cons.mp hchain
      rw [List.getLast?_cons_cons] at hlast
      exact ih hrest (congrArg some hij.symm) hlast

/-- Instructions that do not tile a range leave a gap. -/
theorem exists_gap_of_tile_eq_error {is : List Instruction} {expected : Nat} {e : Error}
    (h : tile expected is = .error e) : ∃ offset, e = .malformed (.gap offset) := by
  induction is generalizing expected with
  | nil => cases h
  | cons i rest ih =>
    rw [tile] at h
    split at h
    · exact ih h
    · cases h
      exact ⟨expected, rfl⟩

/-- Ordered instructions ascend, if not strictly. -/
theorem pairwise_le_inOrder (is : List Instruction) :
    (inOrder is).Pairwise (·.offset ≤ ·.offset) := by
  refine (List.pairwise_mergeSort ?_ ?_ is).imp (of_decide_eq_true ·)
  · intro i j k hij hjk
    exact decide_eq_true (Nat.le_trans (of_decide_eq_true hij) (of_decide_eq_true hjk))
  · intro i j
    simp [Nat.le_total]

/-- Instructions whose offsets tell them apart have one order. -/
theorem inOrder_eq_of_perm {is js : List Instruction} (hperm : is.Perm js)
    (hinj : ∀ i ∈ is, ∀ j ∈ is, i.offset = j.offset → i = j) : inOrder is = inOrder js := by
  have hboth : (inOrder is).Perm (inOrder js) :=
    (inOrder_perm is).trans (hperm.trans (inOrder_perm js).symm)
  refine hboth.eq_of_pairwise ?_ (pairwise_le_inOrder is) (pairwise_le_inOrder js)
  intro i j hi hj hij hji
  have hj' := hperm.mem_iff.mpr (mem_inOrder.mp hj)
  exact hinj i (mem_inOrder.mp hi) j hj' (Nat.le_antisymm hij hji)

/-- Ordering does not change what is in order. -/
theorem inOrder_eq_self {is : List Instruction} (h : is.Pairwise (·.offset ≤ ·.offset)) :
    inOrder is = is :=
  List.mergeSort_of_pairwise (h.imp (decide_eq_true ·))

/-- Instructions that ascend are those of any arrangement of them, ordered. -/
theorem inOrder_eq_of_pairwise {is ordered : List Instruction} (hperm : ordered.Perm is)
    (h : ordered.Pairwise (·.offset < ·.offset)) : inOrder is = ordered := by
  have hnodup : (ordered.map Instruction.offset).Nodup :=
    (List.pairwise_map.mpr h).imp Nat.ne_of_lt
  have hinj := List.inj_on_of_nodup_map hnodup
  calc inOrder is = inOrder ordered :=
        (inOrder_eq_of_perm hperm fun i hi j hj heq => hinj hi hj heq).symm
    _ = ordered := inOrder_eq_self (h.imp Nat.le_of_lt)

/-- Whether instructions tile a body is checked on the ordered ones. -/
theorem tile_inOrder_iff {is : List Instruction} {length : Nat} (hne : is ≠ [])
    (pos : ∀ i ∈ is, 0 < i.size) : tile 0 (inOrder is) = .ok length ↔ Tiles is length := by
  constructor
  · intro htile
    have hne' : inOrder is ≠ [] := by
      intro hnil
      exact hne (List.nil_perm.mp (hnil ▸ inOrder_perm is))
    obtain ⟨hchain, hfirst, hlast⟩ := tile_isChain htile
    refine ⟨inOrder is, inOrder_perm is, ?_, ?_, hchain, ?_⟩
    · exact (tile_pairwise htile fun i hi => pos i (mem_inOrder.mp hi)).1
    · rw [List.head?_eq_some_head hne', Option.map_some,
        hfirst _ (List.head?_eq_some_head hne')]
    · rw [List.getLast?_eq_some_getLast hne', Option.map_some,
        hlast _ (List.getLast?_eq_some_getLast hne')]
  · rintro ⟨ordered, hperm, htiling⟩
    rw [inOrder_eq_of_pairwise hperm htiling.ascending]
    exact tile_eq_ok_of_isChain htiling.adjacent htiling.first htiling.last

/-! ## Boundaries that start an instruction -/

/-- One of the instructions starts at an offset. -/
def StartsAt (instructions : List Instruction) (t : Nat) : Prop :=
  ∃ i ∈ instructions, i.offset = t

/-- An instruction starts at every boundary that the clauses and the branches of a body name. -/
structure Aligned (instructions : List Instruction) (clauses : List Clause) : Prop where
  tryStart : ∀ c ∈ clauses, StartsAt instructions c.tryStart
  handlerStart : ∀ c ∈ clauses, StartsAt instructions c.handlerStart
  filterStart : ∀ c ∈ clauses, c.isFilter → StartsAt instructions c.filterOffset.toNat
  target : ∀ i ∈ instructions, ∀ t, i.branchTarget? = some t ∨ t ∈ i.switchTargets →
    StartsAt instructions t

section

variable {instructions : List Instruction} {length : Nat} {clauses : List Clause}

/-- In a body that is tiled an instruction starts at offset zero. -/
theorem Tiles.startsAt_zero (h : Tiles instructions length) : StartsAt instructions 0 := by
  obtain ⟨ordered, hperm, htiling⟩ := h
  obtain ⟨i, hi, hoffset⟩ := Option.map_eq_some_iff.mp htiling.first
  exact ⟨i, hperm.mem_iff.mp (List.mem_of_head? hi), hoffset⟩

/-- In a body that is tiled an instruction starts wherever another one ends before the body does. -/
theorem Tiles.startsAt_next (h : Tiles instructions length) {i : Instruction}
    (hi : i ∈ instructions) (hnext : i.next < length) : StartsAt instructions i.next := by
  obtain ⟨ordered, hperm, htiling⟩ := h
  obtain ⟨last, hlast, hstop⟩ := Option.map_eq_some_iff.mp htiling.last
  have hmem := hperm.mem_iff.mpr hi
  rw [← List.dropLast_append_getLast? last hlast, List.mem_append, List.mem_singleton] at hmem
  rcases hmem with hmem | rfl
  · cases ordered with
    | nil => cases hmem
    | cons first rest =>
      obtain ⟨j, hj, hij⟩ := exists_after_of_isChain htiling.adjacent i hmem
      exact ⟨j, hperm.mem_iff.mp (List.mem_cons_of_mem _ hj), hij.symm⟩
  · omega

/-- In a body that is tiled an instruction starts wherever control can arrive exactly if the
boundaries that the clauses and the branches name are aligned. -/
theorem Tiles.startsAt_of_arrives_iff (h : Tiles instructions length) :
    (∀ t e, Arrives instructions length clauses t e → StartsAt instructions t) ↔
      Aligned instructions clauses := by
  constructor
  · intro hstarts
    constructor
    · intro c hc
      obtain ⟨n, hn⟩ := List.mem_iff_getElem?.mp hc
      exact hstarts _ _ (.tryStart hn)
    · intro c hc
      obtain ⟨n, hn⟩ := List.mem_iff_getElem?.mp hc
      exact hstarts _ _ (.handlerStart hn)
    · intro c hc hfilter
      obtain ⟨n, hn⟩ := List.mem_iff_getElem?.mp hc
      exact hstarts _ _ (.filterStart hn hfilter)
    · intro i hi t ht
      exact hstarts _ _ (.branch hi ht)
  · intro haligned t e harrives
    cases harrives with
    | method => exact h.startsAt_zero
    | tryStart hclause => exact haligned.tryStart _ (List.mem_of_getElem? hclause)
    | handlerStart hclause => exact haligned.handlerStart _ (List.mem_of_getElem? hclause)
    | filterStart hclause hfilter =>
      exact haligned.filterStart _ (List.mem_of_getElem? hclause) hfilter
    | branch hmem ht => exact haligned.target _ hmem _ ht
    | fallThrough hmem _ hwithin => exact h.startsAt_next hmem hwithin

/-! ## What a partition can end with -/

/-- What the partition of a body can end with, and when. -/
inductive Ends (instructions : List Instruction) (length : Nat) (clauses : List Clause) :
    Except Error (Array Block) → Prop
  /-- There is nothing to partition. -/
  | empty (none : instructions = [] ∨ length = 0) : Ends instructions length clauses (.error .empty)
  /-- The instructions leave a gap or overlap. -/
  | gap (some : instructions ≠ [] ∧ length ≠ 0) (untiled : ¬ Tiles instructions length)
      (offset : Nat) : Ends instructions length clauses (.error (.malformed (.gap offset)))
  /-- The instructions do not end with the body. -/
  | wrongLength (some : instructions ≠ [] ∧ length ≠ 0) (untiled : ¬ Tiles instructions length)
      (stop : Nat) : Ends instructions length clauses (.error (.malformed (.wrongLength stop length)))
  /-- Control arrives where no instruction starts. -/
  | inside (some : instructions ≠ [] ∧ length ≠ 0) (tiled : Tiles instructions length) {t : Nat}
      {e : Entry} (arrives : Arrives instructions length clauses t e)
      (misaligned : ¬ StartsAt instructions t) :
      Ends instructions length clauses (.error (.malformed (.notInstructionStart t e)))
  /-- There are blocks. -/
  | blocks (some : instructions ≠ [] ∧ length ≠ 0) (tiled : Tiles instructions length)
      (aligned : ∀ t e, Arrives instructions length clauses t e → StartsAt instructions t)
      (blocks : Array Block) : Ends instructions length clauses (.ok blocks)

namespace Ends

variable {outcome : Except Error (Array Block)}

/-- A body is refused as empty exactly if there is nothing to partition. -/
theorem eq_error_empty_iff (h : Ends instructions length clauses outcome) :
    outcome = .error .empty ↔ instructions = [] ∨ length = 0 := by
  constructor
  · rintro rfl
    cases h with
    | empty hnone => exact hnone
  · intro hnone
    cases h with
    | empty => rfl
    | gap hsome | wrongLength hsome | inside hsome | blocks hsome =>
      exact absurd hnone (not_or.mpr hsome)

/-- A body that is not empty has blocks if it is tiled and aligned, and is malformed if not. -/
theorem ok_or_malformed (h : Ends instructions length clauses outcome)
    (hsome : instructions ≠ [] ∧ length ≠ 0) :
    ((∃ blocks, outcome = .ok blocks) ∧
      Tiles instructions length ∧ Aligned instructions clauses) ∨
    ((∃ cause, outcome = .error (.malformed cause)) ∧
      ¬ (Tiles instructions length ∧ Aligned instructions clauses)) := by
  cases h with
  | empty hnone => exact absurd hnone (not_or.mpr hsome)
  | gap _ huntiled offset => exact .inr ⟨⟨_, rfl⟩, fun hwf => huntiled hwf.1⟩
  | wrongLength _ huntiled stop => exact .inr ⟨⟨_, rfl⟩, fun hwf => huntiled hwf.1⟩
  | inside _ htiled harrives hmisaligned =>
    refine .inr ⟨⟨_, rfl⟩, fun hwf => hmisaligned ?_⟩
    exact htiled.startsAt_of_arrives_iff.mpr hwf.2 _ _ harrives
  | blocks _ htiled haligned blocks =>
    exact .inl ⟨⟨blocks, rfl⟩, htiled, htiled.startsAt_of_arrives_iff.mp haligned⟩

/-- A conditional branch falls through to an instruction of the tiling. -/
theorem ne_fallThrough (h : Ends instructions length clauses outcome) (offset source : Nat) :
    outcome ≠ .error (.malformed (.notInstructionStart offset (.fallThrough source))) := by
  rintro rfl
  cases h with
  | inside _ htiled harrives hmisaligned =>
    cases harrives with
    | fallThrough hmem _ hwithin => exact hmisaligned (htiled.startsAt_next hmem hwithin)

end Ends

/-- In ascending instructions the search finds the offsets at which one of them starts. -/
theorem isSome_find?_inOrder (h : (inOrder instructions).Pairwise (·.offset < ·.offset)) {t : Nat} :
    (Bisect.find? Instruction.offset (inOrder instructions).toArray t).isSome ↔
      StartsAt instructions t := by
  have hasc : Bisect.Ascending Instruction.offset (inOrder instructions).toArray := h
  rw [Bisect.isSome_find?_iff hasc]
  simp only [List.mem_toArray, mem_inOrder, StartsAt]

/-- A partition ends in one of these ways. -/
theorem partition_ends (pos : ∀ i ∈ instructions, 0 < i.size) :
    Ends instructions length clauses (partition instructions length clauses) := by
  rw [partition_eq]
  split
  · next hempty =>
    simp only [Bool.or_eq_true, List.isEmpty_iff, decide_eq_true_eq] at hempty
    exact .empty hempty
  next hempty =>
  simp only [Bool.or_eq_true, List.isEmpty_iff, decide_eq_true_eq, not_or] at hempty
  have htiles := fun n => @tile_inOrder_iff _ n hempty.1 pos
  cases htile : tile 0 (inOrder instructions) with
  | error e =>
    obtain ⟨offset, rfl⟩ := exists_gap_of_tile_eq_error htile
    refine .gap hempty (fun htiled => ?_) offset
    rw [← htiles, htile] at htiled
    cases htiled
  | ok stop =>
    simp only [Except.bind]
    split
    · next hstop =>
      refine .wrongLength hempty (fun htiled => ?_) stop
      rw [← htiles, htile] at htiled
      exact hstop (Except.ok.inj htiled)
    next hstop =>
    rw [not_not] at hstop
    subst hstop
    have htiled := (htiles stop).mp htile
    have hpair := (tile_pairwise htile fun i hi => pos i (mem_inOrder.mp hi)).1
    split
    · next t e hfind =>
      have hnone := List.find?_some hfind
      rw [Bool.not_eq_true', ← Bool.not_eq_true, isSome_find?_inOrder hpair] at hnone
      exact .inside hempty htiled (mem_discover_iff.mp (List.mem_of_find?_eq_some hfind)) hnone
    · next hfind =>
      rw [unclosed?_cut htile]
      refine .blocks hempty htiled (fun t e harrives => ?_) _
      have hsome := List.find?_eq_none.mp hfind _ (mem_discover_iff.mpr harrives)
      rwa [Bool.not_eq_true', Bool.not_eq_false, isSome_find?_inOrder hpair] at hsome

end

/-- A body has a partition exactly if it is well formed. With instructions that were read, the
partition is refused as empty if there are no instructions or no bytes; otherwise it gives blocks if
the instructions tile the body and one of them starts at every boundary that a clause or a branch
names, and is refused as malformed if not. The reason is never that a block stays open or that a
conditional branch falls through into an instruction. -/
theorem partition_outcome {instructions : List Instruction} (hread : ∀ i ∈ instructions, i.Decoded)
    (length : Nat) (clauses : List Clause) :
    (partition instructions length clauses = .error .empty ↔ instructions = [] ∨ length = 0) ∧
    (instructions ≠ [] → length ≠ 0 →
      ((∃ blocks, partition instructions length clauses = .ok blocks) ↔
        Tiles instructions length ∧ Aligned instructions clauses) ∧
      (¬ (Tiles instructions length ∧ Aligned instructions clauses) →
        ∃ cause, partition instructions length clauses = .error (.malformed cause))) ∧
    (∀ start boundary,
      partition instructions length clauses ≠ .error (.malformed (.openBlock start boundary))) ∧
    ∀ offset source, partition instructions length clauses ≠
      .error (.malformed (.notInstructionStart offset (.fallThrough source))) := by
  have hends := @partition_ends instructions length clauses fun i hi => (hread i hi).size_pos
  refine ⟨hends.eq_error_empty_iff, fun hne hlength => ?_, fun start boundary hopen => ?_,
    hends.ne_fallThrough⟩
  · rcases hends.ok_or_malformed ⟨hne, hlength⟩ with ⟨hok, hwf⟩ | ⟨⟨cause, hcause⟩, hwf⟩
    · exact ⟨iff_of_true hok hwf, fun hnot => absurd hwf hnot⟩
    · rw [hcause]
      exact ⟨iff_of_false nofun hwf, fun _ => ⟨cause, rfl⟩⟩
  · rw [hopen] at hends
    cases hends

/-- A loop whose body is protected by a finally and by a filter clause, with its instructions in
descending order: it is well formed, as it has a partition, and without its bytes it is empty. -/
theorem partition_outcome_guarded_loop :
    ∃ is, Body.decode Body.guardedLoop = .ok is ∧
      Tiles is.reverse 8 ∧ Aligned is.reverse [Body.loopFinally, Body.loopFilter] ∧
      partition is.reverse 0 [Body.loopFinally, Body.loopFilter] = .error .empty := by
  obtain ⟨is, blocks, hread, hblocks⟩ := exists_partition_guardedLoop
  have hdecoded : ∀ i ∈ is.reverse, i.Decoded :=
    fun i hi => Body.decoded_of_mem hread (List.mem_reverse.mp hi)
  have hne := (partition_eq_ok_iff.mp hblocks).1
  obtain ⟨-, hsome, -⟩ :=
    partition_outcome hdecoded 8 [Body.loopFinally, Body.loopFilter]
  obtain ⟨htiles, haligned⟩ := (hsome hne (by decide)).1.mp ⟨blocks, hblocks⟩
  exact ⟨is, hread, htiles, haligned, (partition_outcome hdecoded 0 _).1.mpr (.inr rfl)⟩

/-! ## Order and repetition -/

/-- The partition depends only on the ordered instructions. -/
theorem partition_congr {is js : List Instruction} (h : inOrder is = inOrder js) (length : Nat)
    (clauses : List Clause) : partition is length clauses = partition js length clauses := by
  have hperm : is.Perm js := (inOrder_perm is).symm.trans (h ▸ inOrder_perm js)
  rw [partition_eq, partition_eq, h, hperm.isEmpty_eq]

/-- The instructions of one body can be given in any order, and a partition can be made again. For
instructions that stand in one body, the outcome is the same for every rearrangement of them, be it
blocks or an error; and blocks are what partitioning their instructions gives. -/
theorem partition_orderless {bytes : List UInt8} {instructions : List Instruction}
    (hstand : ∀ i ∈ instructions, i.StandsIn bytes) (length : Nat) (clauses : List Clause) :
    (∀ others, instructions.Perm others →
      partition instructions length clauses = partition others length clauses) ∧
    ∀ blocks, partition instructions length clauses = .ok blocks →
      partition (blocks.toList.flatMap Block.instructions) length clauses = .ok blocks := by
  refine ⟨fun others hperm => ?_, fun blocks hblocks => ?_⟩
  · refine partition_congr (inOrder_eq_of_perm hperm fun i hi j hj hoffset => ?_) length clauses
    exact (hstand i hi).eq_of_offset_eq (hstand j hj) hoffset
  · rw [flatMap_instructions_of_partition hblocks, ← hblocks]
    exact partition_congr (inOrder_eq_self (pairwise_le_inOrder instructions)) length clauses

/-- A loop whose body is protected by a finally and by a filter clause has the same blocks whether
its instructions are given in descending order, in ascending order or block by block. -/
theorem partition_orderless_guarded_loop :
    ∃ is blocks,
      Body.decode Body.guardedLoop = .ok is ∧
      partition is.reverse 8 [Body.loopFinally, Body.loopFilter] = .ok blocks ∧
      partition is 8 [Body.loopFinally, Body.loopFilter] = .ok blocks ∧
      partition (blocks.toList.flatMap Block.instructions) 8
        [Body.loopFinally, Body.loopFilter] = .ok blocks := by
  obtain ⟨is, blocks, hread, hblocks⟩ := exists_partition_guardedLoop
  have hstand : ∀ i ∈ is.reverse, i.StandsIn Body.guardedLoop :=
    fun i hi => Body.standsIn_of_mem hread (List.mem_reverse.mp hi)
  obtain ⟨hperm, hagain⟩ :=
    partition_orderless hstand 8 [Body.loopFinally, Body.loopFilter]
  exact ⟨is, blocks, hread, hblocks, hperm is is.reverse_perm ▸ hblocks, hagain blocks hblocks⟩

end Block

end Provenance
