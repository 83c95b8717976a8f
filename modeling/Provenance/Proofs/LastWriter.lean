import Provenance.Instruction.Decode
import Provenance.Proofs.Edges
import Provenance.Proofs.Partition
import Provenance.Proofs.Replay

/-!
# Edges lead to the last writer

Instructions that are carried out one after the other leave the stack at certain depths
(`Execution`), and each of them writes the slots between what it leaves of the stack and the new top
(`Execution.Writes`). Slots are counted from the bottom of the stack. A replay keeps in every slot
the last instruction that wrote it (`Execution.HoldsLastWriters`), so the edges that it finds are
those from an instruction to the last writers of the slots it takes (`Execution.Takes`). The
invariant is `Execution.Follows`; one instruction keeps it (`Execution.Follows.step`), and so does
a path (`Replay.edges_lastWriter`).
-/

namespace Provenance

/-- Instructions carried out one after the other, starting with the empty stack: how many values are
on the stack before each of them, and what it does there. -/
structure Execution (resolver : Resolver) (is : List Instruction) where
  /-- The number of values before the instruction at a place, and after the last one. -/
  depth : Nat → Nat
  /-- The effect of the instruction at a place. -/
  effect : Nat → Effect
  depth_zero : depth 0 = 0
  effect_eq : ∀ {k : Nat} {i : Instruction}, is[k]? = some i →
    i.effect resolver (depth k = 0) = .ok (effect k)
  depth_succ : ∀ {k : Nat}, k < is.length →
    depth (k + 1) = depth k - (effect k).pops + (effect k).pushes

namespace Execution

variable {resolver : Resolver} {is : List Instruction} {x : Execution resolver is}

/-! ## Writers -/

/-- The instruction at place `k` leaves a value in slot `s`. -/
def Writes (x : Execution resolver is) (k s : Nat) : Prop :=
  x.depth k - (x.effect k).pops ≤ s ∧ s < x.depth (k + 1)

/-- Of the first `n` instructions, the one at place `k` is the last that writes slot `s`. -/
structure LastWriter (x : Execution resolver is) (n s k : Nat) : Prop where
  before : k < n
  writes : x.Writes k s
  last : ∀ m, k < m → m < n → ¬ x.Writes m s

/-- The edges of the instruction at place `j`: from each value that it takes, and that is there, to
the last instruction that wrote its slot. -/
inductive Takes (x : Execution resolver is) (j : Nat) : Edge → Prop
  | intro {consumer producer : Instruction} {p k : Nat} (consumer_eq : is[j]? = some consumer)
      (taken : p < min (x.effect j).pops (x.depth j))
      (writer : x.LastWriter j (x.depth j - 1 - p) k) (producer_eq : is[k]? = some producer) :
      Takes x j ⟨consumer.offset, p, producer.offset⟩

/-- A stack, the top first, that has the depth after `n` instructions and holds in each slot the
last of them that wrote it. -/
structure HoldsLastWriters (x : Execution resolver is) (n : Nat) (stack : List Nat) : Prop where
  length : stack.length = x.depth n
  slot : ∀ s < x.depth n, ∃ k i, x.LastWriter n s k ∧ is[k]? = some i ∧
    stack.reverse[s]? = some i.offset

/-- A slot has one last writer. -/
theorem LastWriter.unique {n s k k' : Nat} (h : x.LastWriter n s k) (h' : x.LastWriter n s k') :
    k = k' := by
  rcases Nat.lt_trichotomy k k' with hlt | heq | hgt
  · exact absurd h'.writes (h.last k' hlt h'.before)
  · exact heq
  · exact absurd h.writes (h'.last k hgt h.before)

/-- An instruction that writes a slot is its last writer. -/
theorem Writes.lastWriter {n s : Nat} (h : x.Writes n s) : x.LastWriter (n + 1) s n where
  before := Nat.lt_succ_self n
  writes := h
  last m hm hm' := by omega

/-- An instruction that does not write a slot leaves it its last writer. -/
theorem LastWriter.succ {n s k : Nat} (h : x.LastWriter n s k) (hn : ¬ x.Writes n s) :
    x.LastWriter (n + 1) s k where
  before := Nat.lt_succ_of_lt h.before
  writes := h.writes
  last m hm hm' := by
    rcases Nat.lt_succ_iff_lt_or_eq.mp hm' with hlt | rfl
    · exact h.last m hm hlt
    · exact hn

/-- What is at position `p` from the top of the stack is the last writer of its slot. -/
theorem HoldsLastWriters.getElem?_eq_some_iff {n : Nat} {stack : List Nat}
    (h : x.HoldsLastWriters n stack) {p q : Nat} (hp : p < x.depth n) :
    stack[p]? = some q ↔ ∃ k i, x.LastWriter n (x.depth n - 1 - p) k ∧ is[k]? = some i ∧
      q = i.offset := by
  obtain ⟨k, i, hwriter, hi, hslot⟩ := h.slot (x.depth n - 1 - p) (by omega)
  have hlength := h.length
  rw [List.getElem?_reverse (by omega), hlength,
    show x.depth n - 1 - (x.depth n - 1 - p) = p by omega] at hslot
  rw [hslot]
  refine ⟨fun heq => ⟨k, i, hwriter, hi, (Option.some.inj heq).symm⟩, fun hex => ?_⟩
  obtain ⟨k', i', hwriter', hi', rfl⟩ := hex
  cases hwriter.unique hwriter'
  cases hi.symm.trans hi'
  rfl

/-! ## The invariant of a replay -/

/-- A replay that has carried out the first `n` instructions. -/
structure Follows (x : Execution resolver is) (n : Nat) (r : Replay) : Prop where
  fault : r.fault? = none
  stack : x.HoldsLastWriters n r.stack
  edges : ∀ e, e ∈ r.edges ↔ ∃ j < n, x.Takes j e

/-- Before the first instruction nothing is on the stack. -/
theorem follows_zero (x : Execution resolver is) : x.Follows 0 {} where
  fault := rfl
  stack := by
    refine ⟨x.depth_zero.symm, fun s hs => ?_⟩
    rw [x.depth_zero] at hs
    exact absurd hs (Nat.not_lt_zero s)
  edges e := by simp

/-- An instruction keeps what is below the values it takes, and writes the slots above. -/
theorem HoldsLastWriters.apply {n : Nat} {r : Replay} {i : Instruction}
    (h : x.HoldsLastWriters n r.stack) (hi : is[n]? = some i) :
    x.HoldsLastWriters (n + 1) (r.apply i (x.effect n)).stack := by
  have hlength := h.length
  have hdepth := x.depth_succ (List.getElem?_eq_some_iff.mp hi).1
  have hstack : (r.apply i (x.effect n)).stack.reverse =
      r.stack.reverse.take (x.depth n - (x.effect n).pops) ++
        List.replicate (x.effect n).pushes i.offset := by
    rw [Replay.apply_stack, List.reverse_append, List.reverse_replicate, List.reverse_drop, hlength]
  have hkept : (r.stack.reverse.take (x.depth n - (x.effect n).pops)).length =
      x.depth n - (x.effect n).pops := by
    rw [List.length_take, List.length_reverse, hlength]
    omega
  refine ⟨?_, fun s hs => ?_⟩
  · rw [← List.length_reverse, hstack, List.length_append, hkept, List.length_replicate, hdepth]
  rw [hstack, List.getElem?_append, hkept]
  by_cases hbelow : s < x.depth n - (x.effect n).pops
  · obtain ⟨k, producer, hwriter, hproducer, hslot⟩ := h.slot s (by omega)
    refine ⟨k, producer, hwriter.succ fun hwrites => ?_, hproducer, ?_⟩
    · have := hwrites.1
      omega
    · rw [if_pos hbelow, List.getElem?_take_of_lt hbelow, hslot]
  · have hwrites : x.Writes n s := ⟨by omega, hs⟩
    refine ⟨n, i, hwrites.lastWriter, hi, ?_⟩
    rw [if_neg hbelow, List.getElem?_replicate, if_pos (by omega)]

/-- The edges of an instruction are those to the last writers of the slots it takes. -/
theorem HoldsLastWriters.mem_pops_iff {n : Nat} {stack : List Nat} {i : Instruction} {e : Edge}
    (h : x.HoldsLastWriters n stack) (hi : is[n]? = some i) :
    e ∈ Replay.pops i.offset (stack.take (x.effect n).pops) ↔ x.Takes n e := by
  have hlength := h.length
  rw [Replay.mem_pops_iff]
  refine ⟨fun hpop => ?_, fun htakes => ?_⟩
  · obtain ⟨consumer, p, q⟩ := e
    obtain ⟨hconsumer, hproducer⟩ := hpop
    cases hconsumer
    have hp := (List.getElem?_eq_some_iff.mp hproducer).1
    rw [List.length_take, hlength] at hp
    rw [List.getElem?_take_of_lt (by omega), h.getElem?_eq_some_iff (by omega)] at hproducer
    obtain ⟨k, producer, hwriter, hproducer, rfl⟩ := hproducer
    exact .intro hi hp hwriter hproducer
  · cases htakes with
    | @intro consumer producer p k hconsumer htaken hwriter hproducer =>
      cases hi.symm.trans hconsumer
      refine ⟨rfl, ?_⟩
      show (stack.take (x.effect n).pops)[p]? = some producer.offset
      rw [List.getElem?_take_of_lt (by omega), h.getElem?_eq_some_iff (by omega)]
      exact ⟨k, producer, hwriter, hproducer, rfl⟩

/-- One more instruction. -/
theorem Follows.step {n : Nat} {r : Replay} {i : Instruction} (h : x.Follows n r)
    (hi : is[n]? = some i) : x.Follows (n + 1) (r.step resolver i) := by
  have hempty : r.stack.isEmpty = decide (x.depth n = 0) := by
    rw [← h.stack.length, r.isEmpty_stack]
  rw [Replay.step_of_effect h.fault (hempty ▸ x.effect_eq hi)]
  refine ⟨h.fault, h.stack.apply hi, fun e => ?_⟩
  rw [Replay.apply_edges, List.mem_append, List.mem_reverse, h.stack.mem_pops_iff hi, h.edges]
  refine ⟨fun he => ?_, fun he => ?_⟩
  · rcases he with htakes | ⟨j, hj, htakes⟩
    · exact ⟨n, Nat.lt_succ_self n, htakes⟩
    · exact ⟨j, Nat.lt_succ_of_lt hj, htakes⟩
  · obtain ⟨j, hj, htakes⟩ := he
    rcases Nat.lt_succ_iff_lt_or_eq.mp hj with hlt | rfl
    · exact .inr ⟨j, hlt, htakes⟩
    · exact .inl htakes

/-- A replay follows every execution up to each of its places. -/
theorem follows_before (x : Execution resolver is) {k : Nat} (hk : k ≤ is.length) :
    x.Follows k (Replay.before resolver is k) := by
  induction k with
  | zero => exact x.follows_zero
  | succ k ih =>
    have hi := List.getElem?_eq_getElem (Nat.lt_of_succ_le hk)
    rw [Replay.before_succ hi]
    exact (ih (Nat.le_of_succ_le hk)).step hi

/-- The execution that a replay without an error is. -/
def ofReplay (h : (is.foldl (Replay.step resolver) {}).fault? = none) :
    Execution resolver is where
  depth k := (Replay.before resolver is k).stack.length
  effect k :=
    (is[k]?.bind fun i =>
      (i.effect resolver (Replay.before resolver is k).stack.isEmpty).toOption).getD ⟨0, 0⟩
  depth_zero := rfl
  effect_eq {k i} hi := by
    obtain ⟨effect, heffect⟩ := Replay.exists_effect_before h hi
    rw [← Replay.isEmpty_stack, hi, Option.bind_some, heffect]
    rfl
  depth_succ {k} hk := by
    have hi := List.getElem?_eq_getElem hk
    obtain ⟨effect, heffect⟩ := Replay.exists_effect_before h hi
    rw [Replay.before_succ hi, Replay.step_of_effect (Replay.fault?_before h k) heffect,
      Replay.apply_stack, hi, Option.bind_some, heffect, List.length_append, List.length_replicate,
      List.length_drop, Nat.add_comm]
    rfl

end Execution

/-! ## Paths -/

/-- Replaying one path adds its edges. -/
theorem Simulation.edges_run_singleton (resolver : Resolver) (blocks : Array Block)
    (before : EdgeSet) (p : Path) :
    (run resolver blocks before [p]).edges =
      before.insertAll (Replay.path resolver blocks p).edges.reverse := rfl

/-- A path that is replayed without an error adds exactly the edges from its instructions to the
last writers of the slots that they take, and leaves the stack with the last writers of its
slots. -/
theorem Replay.edges_lastWriter {resolver : Resolver} {blocks : Array Block} {p : Path}
    {stack : List Nat} (h : (Replay.path resolver blocks p).outcome = .ok stack)
    (before : EdgeSet) :
    ∃ is, p.code? blocks = some is ∧ Nonempty (Execution resolver is) ∧
      ∀ x : Execution resolver is,
        (∀ e, e ∈ (Simulation.run resolver blocks before [p]).edges.toList ↔
          e ∈ before.toList ∨ ∃ j < is.length, x.Takes j e) ∧
        x.HoldsLastWriters is.length stack := by
  obtain ⟨hfault, rfl⟩ := outcome_eq_ok_iff.mp h
  obtain ⟨is, his⟩ := exists_code_of_path hfault
  have hpath : path resolver blocks p = is.foldl (step resolver) {} := path_eq his
  refine ⟨is, his, ⟨.ofReplay (hpath ▸ hfault)⟩, fun x => ?_⟩
  have hfollows := x.follows_before (Nat.le_refl is.length)
  rw [before_length, ← hpath] at hfollows
  refine ⟨fun e => ?_, hfollows.stack⟩
  rw [Simulation.edges_run_singleton, EdgeSet.mem_toList_insertAll, List.mem_reverse,
    hfollows.edges]

/-- A body that pops from the empty stack and then loops over a duplication and a call. -/
def Body.popAndLoop : List UInt8 :=
  [0x26, 0x16, 0x25, 0x28, 0x01, 0x00, 0x00, 0x06, 0x58, 0x2D, 0xF6, 0x17, 0x18, 0x2A]

/-- A path that goes twice round the loop: its replay leaves one value, and its edges lead to the
last writers. -/
theorem Replay.edges_lastWriter_loop :
    ∃ is blocks, Body.decode Body.popAndLoop = .ok is ∧ Block.partition is 14 [] = .ok blocks ∧
      (Replay.path .oneCallee blocks ⟨[0, 1, 1, 11]⟩).outcome = .ok [11] ∧
      ∃ is, Path.code? blocks ⟨[0, 1, 1, 11]⟩ = some is ∧
        Nonempty (Execution .oneCallee is) ∧
        ∀ x : Execution .oneCallee is,
          (∀ e, e ∈ (Simulation.run .oneCallee blocks .empty [⟨[0, 1, 1, 11]⟩]).edges.toList ↔
            e ∈ EdgeSet.empty.toList ∨ ∃ j < is.length, x.Takes j e) ∧
          x.HoldsLastWriters is.length [11] := by
  have hok : ((Body.decode Body.popAndLoop).bind fun is =>
      (Block.partition is 14 []).bind fun blocks =>
        (Replay.path .oneCallee blocks ⟨[0, 1, 1, 11]⟩).outcome) = .ok [11] := by cbv
  obtain ⟨is, hread, hok⟩ := bind_eq_ok_iff.mp hok
  obtain ⟨blocks, hblocks, hok⟩ := bind_eq_ok_iff.mp hok
  exact ⟨is, blocks, hread, hblocks, hok, Replay.edges_lastWriter hok .empty⟩

end Provenance
