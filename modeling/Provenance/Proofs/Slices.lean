import Provenance.Proofs.Boundaries

/-!
# Blocks as slices

A block can be found between two boundaries without going through the instructions one by one: the
instructions ascend, so that two searches by halving give the first instruction that does not lie
before a boundary and the first one that does not lie before the next (`Bisect.partitionPoint`).
Slicing out what is between them for each boundary gives the same blocks as cutting at the
boundaries, and a partition made in this way has the same outcome (`Block.partitionBySlices_eq`).
-/

namespace Provenance

/-! ## Where a test starts to fail -/

namespace Bisect

variable {α : Type} {below : α → Bool}

/-- Whether there is an element at an index and the test holds of it. -/
def holdsAt (below : α → Bool) (items : Array α) (i : Nat) : Bool :=
  items[i]?.any below

/-- The first index at which the test fails, in an array of which it holds up to some index. -/
def partitionPoint (below : α → Bool) (items : Array α) : Nat :=
  let last := lastBelow (holdsAt below items) 0 items.size
  if holdsAt below items last then last + 1 else last

/-- The test holds at the indices of the elements in front, if it holds of them only. -/
theorem holdsAt_append {front rest : List α} (hfront : ∀ a ∈ front, below a)
    (hrest : ∀ a ∈ rest, ¬ below a) (i : Nat) :
    holdsAt below (front ++ rest).toArray i ↔ i < front.length := by
  rw [holdsAt, List.getElem?_toArray]
  by_cases hi : i < front.length
  · rw [List.getElem?_append_left hi, List.getElem?_eq_getElem hi]
    exact iff_of_true (hfront _ (List.getElem_mem hi)) hi
  · rw [List.getElem?_append_right (Nat.le_of_not_lt hi)]
    refine iff_of_false (fun hany => ?_) hi
    cases ha : rest[i - front.length]? with
    | none =>
      rw [ha] at hany
      cases hany
    | some a =>
      rw [ha] at hany
      exact hrest a (List.mem_of_getElem? ha) hany

/-- The search finds where the elements end of which the test holds. -/
theorem partitionPoint_append {front rest : List α} (hfront : ∀ a ∈ front, below a)
    (hrest : ∀ a ∈ rest, ¬ below a) :
    partitionPoint below (front ++ rest).toArray = front.length := by
  have hholds := holdsAt_append hfront hrest
  have hsize : (front ++ rest).toArray.size = front.length + rest.length := by
    rw [List.size_toArray, List.length_append]
  unfold partitionPoint
  rcases Nat.eq_zero_or_pos (front ++ rest).toArray.size with hempty | hpos
  · have hzero : front.length = 0 := by omega
    have hlast : lastBelow (holdsAt below (front ++ rest).toArray) 0 0 = 0 := by
      rw [lastBelow, if_pos (Nat.zero_le 1)]
    simp only [hempty, hlast, hholds, hzero, Nat.lt_irrefl, if_false]
  · have hdown : ∀ i j, i ≤ j → holdsAt below (front ++ rest).toArray j →
        holdsAt below (front ++ rest).toArray i := by
      intro i j hij hj
      rw [hholds] at hj ⊢
      exact Nat.lt_of_le_of_lt hij hj
    obtain ⟨-, hlt, hlast, hafter⟩ := lastBelow_spec hdown 0 _ hpos
    simp only [hholds] at hlast hafter ⊢
    split
    · next hinside =>
      -- the test holds of the last element in front, so the search does not end before it
      have := hafter (front.length - 1)
      omega
    · omega

end Bisect

/-! ## Slicing -/

namespace Block

/-- The instructions from an offset on that lie before another one. -/
def slice (ordered : Array Instruction) (start boundary : Nat) : List Instruction :=
  (ordered.extract (Bisect.partitionPoint (·.offset < start) ordered)
    (Bisect.partitionPoint (·.offset < boundary) ordered)).toList

/-- The blocks that start at some boundaries of a body of `length` bytes, each sliced out between a
boundary and the next. A block has to stop at the next boundary. -/
def slices (ordered : Array Instruction) (entries : Grouping Entry) (length : Nat) :
    (starts : List Nat) → Except Error (List Block)
  | [] => .ok []
  | start :: rest =>
    let boundary := rest.head?.getD length
    match slice ordered start boundary with
    | [] => .error (.malformed (.openBlock start boundary))
    | i :: tail =>
      let b : Block := ⟨i, tail, entries.group start⟩
      if b.stop = boundary then (slices ordered entries length rest).map (b :: ·)
      else .error (.malformed (.openBlock start boundary))

/-- The partition of a body, with the blocks sliced out between neighbouring boundaries. -/
def partitionBySlices (instructions : List Instruction) (length : Nat) (clauses : List Clause) :
    Except Error (Array Block) :=
  let entries := discover (inOrder instructions) length clauses
  let ordered := (inOrder instructions).toArray
  if instructions.isEmpty || length = 0 then .error .empty
  else (tile 0 (inOrder instructions)).bind fun stop =>
    if stop ≠ length then .error (.malformed (.wrongLength stop length))
    else
      match entries.find? fun entry =>
        !(Bisect.find? Instruction.offset ordered entry.1).isSome with
      | some (offset, entry) => .error (.malformed (.notInstructionStart offset entry))
      | none =>
        (slices ordered (.ofList entries) length (Grouping.ofList entries).keys).map List.toArray

/-- What is sliced out of ascending instructions is what lies between the boundaries. -/
theorem slice_eq {before inside after : List Instruction} {start boundary : Nat}
    (hbefore : ∀ i ∈ before, i.offset < start)
    (hinside : ∀ i ∈ inside, start ≤ i.offset ∧ i.offset < boundary)
    (hafter : ∀ i ∈ after, boundary ≤ i.offset) (hle : start ≤ boundary) :
    slice (before ++ inside ++ after).toArray start boundary = inside := by
  have hfirst : Bisect.partitionPoint (·.offset < start) (before ++ inside ++ after).toArray =
      before.length := by
    rw [List.append_assoc]
    refine Bisect.partitionPoint_append (fun i hi => decide_eq_true (hbefore i hi)) fun i hi => ?_
    rw [decide_eq_true_eq, Nat.not_lt]
    rcases List.mem_append.mp hi with hi | hi
    · exact (hinside i hi).1
    · exact Nat.le_trans hle (hafter i hi)
  have hlast : Bisect.partitionPoint (·.offset < boundary) (before ++ inside ++ after).toArray =
      (before ++ inside).length := by
    refine Bisect.partitionPoint_append (fun i hi => decide_eq_true ?_) fun i hi => ?_
    · rcases List.mem_append.mp hi with hi | hi
      · exact Nat.lt_of_lt_of_le (hbefore i hi) hle
      · exact (hinside i hi).2
    · rw [decide_eq_true_eq, Nat.not_lt]
      exact hafter i hi
  rw [slice, hfirst, hlast]
  simp

/-- No instruction lies before the first of ascending ones. -/
theorem offset_le_of_mem {i j : Instruction} {rest : List Instruction}
    (h : (i :: rest).Pairwise (·.offset < ·.offset)) (hj : j ∈ i :: rest) :
    i.offset ≤ j.offset := by
  rcases List.mem_cons.mp hj with rfl | hj
  · exact Nat.le_refl _
  · exact Nat.le_of_lt ((List.pairwise_cons.mp h).1 j hj)

/-- What is sliced out between the start of a block and that of the next one, or the end of the
body, is the block. -/
theorem slice_block {before : List Instruction} {b : Block} {rest : List Block} {length : Nat}
    (hascending : (before ++ b.instructions ++ rest.flatMap instructions).Pairwise
      (·.offset < ·.offset))
    (hwithin : ∀ i ∈ b.instructions, i.offset < length) :
    slice (before ++ b.instructions ++ rest.flatMap instructions).toArray b.start
      ((rest.head?.map start).getD length) = b.instructions := by
  obtain ⟨hfront, hafter, hcross⟩ := List.pairwise_append.mp hascending
  obtain ⟨-, hinside, hbefore⟩ := List.pairwise_append.mp hfront
  have hhead : b.head ∈ b.instructions := List.mem_cons_self ..
  have hbefore : ∀ i ∈ before, i.offset < b.start := fun i hi => hbefore i hi b.head hhead
  have hstart : ∀ i ∈ b.instructions, b.start ≤ i.offset := fun i hi => offset_le_of_mem hinside hi
  cases rest with
  | nil =>
    refine slice_eq hbefore (fun i hi => ⟨hstart i hi, hwithin i hi⟩) (List.forall_mem_nil _) ?_
    exact Nat.le_of_lt (hwithin b.head hhead)
  | cons c rest =>
    have hnext : ∀ i ∈ b.instructions, i.offset < c.start := fun i hi =>
      hcross i (List.mem_append_right _ hi) c.head (List.mem_cons_self ..)
    refine slice_eq hbefore (fun i hi => ⟨hstart i hi, hnext i hi⟩) (fun i hi => ?_) ?_
    · exact offset_le_of_mem hafter hi
    · exact Nat.le_of_lt (hnext b.head hhead)

/-- Slicing out blocks that ascend and stop at each other gives these blocks. -/
theorem slices_eq_ok {entries : Grouping Entry} {length : Nat} {bs : List Block}
    (hentries : ∀ b ∈ bs, b.entries = entries.group b.start) (hclosed : unclosed? length bs = none)
    (hwithin : ∀ b ∈ bs, ∀ i ∈ b.instructions, i.offset < length) (before : List Instruction)
    (hascending : (before ++ bs.flatMap instructions).Pairwise (·.offset < ·.offset)) :
    slices (before ++ bs.flatMap instructions).toArray entries length (bs.map start) = .ok bs := by
  induction bs generalizing before with
  | nil => rfl
  | cons b rest ih =>
    obtain ⟨hb, hentries⟩ := List.forall_mem_cons.mp hentries
    obtain ⟨hwithinB, hwithin⟩ := List.forall_mem_cons.mp hwithin
    rw [List.flatMap_cons, ← List.append_assoc] at hascending ⊢
    have hslice := slice_block hascending hwithinB
    rw [unclosed?] at hclosed
    split at hclosed
    · next hstop =>
      have hblock : (⟨b.head, b.tail, entries.group b.start⟩ : Block) = b := by rw [← hb]
      rw [List.map_cons, slices, List.head?_map, hslice]
      simp only [instructions, hblock, if_pos hstop]
      rw [← instructions, ih hentries hclosed hwithin _ hascending]
      rfl
    · cases hclosed

/-! ## Partitions -/

section

variable {instructions : List Instruction} {length : Nat} {clauses : List Clause}
variable (pos : ∀ i ∈ instructions, 0 < i.size)

include pos

/-- The blocks of a partition start at the boundaries. -/
theorem map_start_of_partition {blocks : Array Block}
    (h : partition instructions length clauses = .ok blocks) :
    blocks.toList.map start =
      (Grouping.ofList (discover (inOrder instructions) length clauses)).keys := by
  have hascending : (blocks.toList.map start).Pairwise (· < ·) :=
    List.pairwise_map.mpr (ascending_of_partition pos h)
  refine hascending.eq_of_mem_iff (Grouping.pairwise_keys _) fun t => ?_
  rw [List.mem_map, Grouping.mem_keys_ofList]
  constructor
  · rintro ⟨b, hb, rfl⟩
    obtain ⟨e, he⟩ := exists_arrives_start h (Array.mem_toList_iff.mp hb)
    exact ⟨e, mem_discover_iff.mpr he⟩
  · rintro ⟨e, he⟩
    obtain ⟨b, hb, hstart⟩ := exists_start_of_mem_discover pos h he
    exact ⟨b, Array.mem_toList_iff.mpr hb, hstart⟩

/-- Slicing at the boundaries gives the blocks of a partition. -/
theorem slices_of_partition {blocks : Array Block}
    (h : partition instructions length clauses = .ok blocks) :
    slices (inOrder instructions).toArray
      (.ofList (discover (inOrder instructions) length clauses)) length
      (Grouping.ofList (discover (inOrder instructions) length clauses)).keys =
        .ok blocks.toList := by
  have hascending := pairwise_inOrder pos h
  have hwithin : ∀ b ∈ blocks.toList, ∀ i ∈ b.instructions, i.offset < length := fun b hb i hi =>
    offset_lt_of_mem_partition pos h (mem_of_mem_partition h (Array.mem_toList_iff.mp hb) hi)
  rw [← map_start_of_partition pos h]
  obtain ⟨-, -, htile, -, rfl⟩ := partition_eq_ok_iff.mp h
  rw [← flatMap_instructions_cut (inOrder instructions)] at hascending
  have hslices := slices_eq_ok (fun b hb => entries_of_mem_cut hb) (unclosed?_cut htile _)
    hwithin [] hascending
  rwa [List.nil_append, flatMap_instructions_cut] at hslices

/-- A partition has the same outcome, blocks or an error, whether the instructions are cut at the
boundaries or sliced out between them. -/
theorem partitionBySlices_eq (length : Nat) (clauses : List Clause) :
    partitionBySlices instructions length clauses = partition instructions length clauses := by
  rw [partition_eq, partitionBySlices]
  split
  · rfl
  next hempty =>
  simp only [Bool.or_eq_true, List.isEmpty_iff, decide_eq_true_eq, not_or] at hempty
  cases htile : tile 0 (inOrder instructions) with
  | error e => rfl
  | ok stop =>
    simp only [Except.bind]
    split
    · rfl
    next hstop =>
    rw [not_not] at hstop
    subst hstop
    cases hfind : (discover (inOrder instructions) stop clauses).find? fun entry =>
        !(Bisect.find? Instruction.offset (inOrder instructions).toArray entry.1).isSome with
    | some entry => rfl
    | none =>
      simp only [List.find?_eq_none, Bool.not_eq_true, Bool.not_eq_false'] at hfind
      have hok := partition_eq_ok_iff.mpr ⟨hempty.1, hempty.2, htile, hfind, rfl⟩
      rw [slices_of_partition pos hok, unclosed?_cut htile]
      rfl

end

end Block

end Provenance
