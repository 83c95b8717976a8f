import Mathlib.Data.Set.Finite.Basic
import Provenance.Proofs.LastWriter
import Provenance.Proofs.Nesting
import Provenance.Proofs.Simulation
import Provenance.Proofs.UnknownCallee

/-!
# The data flow of a method

An edge of an analysis joins two instructions on one of its paths: one that takes a value at the
edge's position, and one that leaves a value (`Edge.Joins`). An instruction that takes a value takes
the ones above it too, so the positions of a consumer are `0`, `1`, …, up to some number that is at
most what it pops. All this is `Analysis.WellFormed`, and every analysis has it
(`Analysis.wellFormed_of_ofBytes`). It is read off the execution of each path
(`Execution.Takes.exists_joins`, `Execution.Takes.exists_below`) and carried over to the edges of an
analysis by `Simulation.mem_toList_iff_takes`.
-/

namespace Provenance

/-! ## What an edge says -/

/-- An edge between two instructions of which one takes what the other leaves. -/
structure Edge.Joins (e : Edge) (resolver : Resolver) (consumer producer : Instruction) :
    Prop where
  consumer_offset : consumer.offset = e.consumer
  producer_offset : producer.offset = e.input.producer
  /-- The consumer takes a value at the position, from a stack that is not empty. -/
  taken : ∃ effect, consumer.effect resolver false = .ok effect ∧ e.input.position < effect.pops
  /-- A return takes one value. -/
  returned : consumer.name = "ret" → e.input.position < 1
  /-- The producer leaves a value, whatever is on the stack. -/
  left : ∀ isEmpty, ∃ effect, producer.effect resolver isEmpty = .ok effect ∧ 0 < effect.pushes

/-- A path visits a block with an instruction. -/
def Path.Visits (blocks : Array Block) (p : Path) (i : Instruction) : Prop :=
  ∃ b ∈ blocks, b.start ∈ p.starts ∧ i ∈ b.instructions

/-- The data flow of an analysis is well formed. -/
structure Analysis.WellFormed (a : Analysis) (resolver : Resolver) : Prop where
  /-- An edge joins two instructions on a path. -/
  joins : ∀ e ∈ a.edges.toList, ∃ p ∈ a.paths.toList, ∃ consumer ∈ a.instructions,
    ∃ producer ∈ a.instructions, p.Visits a.blocks consumer ∧ p.Visits a.blocks producer ∧
      e.Joins resolver consumer producer
  /-- A consumer that has an input at a position has one at each lower position. -/
  below : ∀ e ∈ a.edges.toList, ∀ position < e.input.position,
    ∃ producer, ⟨e.consumer, position, producer⟩ ∈ a.edges.toList
  /-- The positions of an instruction are the lowest, and not more than it pops. -/
  positions : ∀ i ∈ a.instructions, ∃ count, a.edges.positions i.offset = List.range count ∧
    (count = 0 ∨ ∃ effect, i.effect resolver false = .ok effect ∧ count ≤ effect.pops)
  /-- Writing the expression of an instruction only turns to instructions. -/
  follows : ∀ i ∈ a.instructions, ∀ visited m,
    (a.view resolver).Reaches (View.start visited i.offset) m → ∀ offset, m.next? = some offset →
      ∃ j ∈ a.instructions, j.offset = offset

/-! ## Instructions and what they take -/

/-- The return is the opcode with its mnemonic. -/
theorem OpCode.isReturn_iff : ∀ o ∈ all, o.isReturn ↔ o.name = "ret" := by
  decide +kernel

namespace Instruction

variable {resolver : Resolver} {i : Instruction} {effect : Effect}

/-- What an instruction does that leaves a value does not depend on the stack. -/
theorem effect_eq_of_pushes_pos {isEmpty : Bool} (h : i.effect resolver isEmpty = .ok effect)
    (hpos : 0 < effect.pushes) (isEmpty' : Bool) : i.effect resolver isEmpty' = .ok effect := by
  by_cases hreturn : i.opcode.isReturn
  · rw [effect_of_isReturn hreturn] at h
    cases h
    exact absurd hpos (Nat.lt_irrefl 0)
  · exact (effect_congr fun h => absurd h hreturn).trans h

/-- A return takes at most one value. -/
theorem pops_le_one_of_isReturn {isEmpty : Bool} (hreturn : i.opcode.isReturn)
    (h : i.effect resolver isEmpty = .ok effect) : effect.pops ≤ 1 := by
  rw [effect_of_isReturn hreturn] at h
  cases h
  show (if isEmpty then 0 else 1) ≤ 1
  split
  · exact Nat.zero_le 1
  · exact Nat.le_refl 1

end Instruction

namespace Execution

variable {resolver : Resolver} {is : List Instruction} {x : Execution resolver is}

/-- An instruction that writes a slot leaves a value. -/
theorem Writes.pushes_pos {k s : Nat} (h : x.Writes k s) (hk : k < is.length) :
    0 < (x.effect k).pushes := by
  obtain ⟨hbelow, habove⟩ := h
  rw [x.depth_succ hk] at habove
  omega

/-- The edges of an instruction join it with instructions that were carried out. -/
theorem Takes.exists_joins (hread : ∀ i ∈ is, i.Decoded) {j : Nat} {e : Edge} (h : x.Takes j e) :
    ∃ consumer ∈ is, ∃ producer ∈ is, e.Joins resolver consumer producer := by
  cases h with
  | @intro consumer producer p k hconsumer htaken hwriter hproducer =>
    have hmem := List.mem_of_getElem? hconsumer
    have hdepth : decide (x.depth j = 0) = false := decide_eq_false (by omega)
    have htakes := x.effect_eq hconsumer
    rw [hdepth] at htakes
    have hp : p < (x.effect j).pops := by omega
    have hleaves := hwriter.writes.pushes_pos (List.getElem?_eq_some_iff.mp hproducer).1
    refine ⟨consumer, hmem, producer, List.mem_of_getElem? hproducer, rfl, rfl, ⟨_, htakes, hp⟩,
      fun hname => ?_, fun isEmpty => ⟨_, ?_, hleaves⟩⟩
    · have hreturn := (OpCode.isReturn_iff _ (hread consumer hmem).opcode_mem).mpr hname
      exact Nat.lt_of_lt_of_le hp (Instruction.pops_le_one_of_isReturn hreturn htakes)
    · exact Instruction.effect_eq_of_pushes_pos (x.effect_eq hproducer) hleaves isEmpty

/-- An instruction that takes a value takes the ones above it. -/
theorem Takes.exists_below {j : Nat} {e : Edge} (h : x.Takes j e) {position : Nat}
    (hlt : position < e.input.position) :
    ∃ producer, x.Takes j ⟨e.consumer, position, producer⟩ := by
  cases h with
  | @intro consumer producer p k hconsumer htaken hwriter hproducer =>
    change position < p at hlt
    have hj : j ≤ is.length := (List.getElem?_eq_some_iff.mp hconsumer).1.le
    obtain ⟨k', i, hwriter', hi, -⟩ :=
      (x.follows_before hj).stack.slot (x.depth j - 1 - position) (by omega)
    exact ⟨i.offset, .intro hconsumer (by omega) hwriter' hi⟩

end Execution

/-! ## The edges of an analysis -/

/-- A simulation that succeeds has found what the instructions of its paths take. -/
theorem Simulation.mem_toList_iff_takes {resolver : Resolver} {blocks : Array Block}
    {paths : List Path} {edges : EdgeSet}
    (h : (run resolver blocks .empty paths).outcome = .ok edges) {e : Edge} :
    e ∈ edges.toList ↔ ∃ p ∈ paths, ∃ is, p.code? blocks = some is ∧
      ∃ x : Execution resolver is, ∃ j < is.length, x.Takes j e := by
  rw [mem_toList_iff_of_outcome h]
  refine exists_congr fun p => and_congr_right fun hp => ?_
  have hfault := (outcome_run_eq_ok_iff.mp h).1 p hp
  -- The edges of a replay are what any execution of its code takes.
  have hfollows : ∀ {is : List Instruction}, p.code? blocks = some is →
      ∀ x : Execution resolver is,
        e ∈ (Replay.path resolver blocks p).edges ↔ ∃ j < is.length, x.Takes j e := by
    intro is his x
    rw [Replay.path_eq his, ← Replay.before_length]
    exact (x.follows_before (Nat.le_refl _)).edges e
  constructor
  · intro he
    obtain ⟨is, his⟩ := Replay.exists_code_of_path hfault
    rw [Replay.path_eq his] at hfault
    exact ⟨is, his, .ofReplay hfault, (hfollows his _).mp he⟩
  · rintro ⟨is, his, x, htakes⟩
    exact (hfollows his x).mpr htakes

/-- If a consumer has inputs at all positions below those at which it has one, its positions are the
lowest. -/
theorem EdgeSet.exists_positions_eq_range {edges : List Edge} {consumer : Nat}
    (hbelow : ∀ {above : Nat}, above ∈ (empty.insertAll edges).positions consumer →
      ∀ position < above, position ∈ (empty.insertAll edges).positions consumer) :
    ∃ count, (empty.insertAll edges).positions consumer = List.range count := by
  rw [positions_insertAll] at hbelow ⊢
  simp only [Finset.mem_sort] at hbelow
  -- The number of positions is the first one that is missing.
  have hmissing := (recordedPositions edges consumer).exists_notMem
  refine ⟨Nat.find hmissing, sort_eq_of_pairwise (fun position => ?_) List.pairwise_lt_range⟩
  rw [List.mem_range]
  constructor
  · intro hmem
    by_contra hge
    rcases Nat.lt_or_eq_of_le (Nat.le_of_not_lt hge) with hlt | heq
    · exact Nat.find_spec hmissing (hbelow hmem _ hlt)
    · exact Nat.find_spec hmissing (heq ▸ hmem)
  · intro hlt
    exact not_not.mp (Nat.find_min hmissing hlt)

/-- No two instructions of a partition have the same offset. -/
theorem Block.eq_of_offset_eq {instructions : List Instruction} {length : Nat}
    {clauses : List Clause} {blocks : Array Block} (pos : ∀ i ∈ instructions, 0 < i.size)
    (h : partition instructions length clauses = .ok blocks) {i j : Instruction}
    (hi : i ∈ instructions) (hj : j ∈ instructions) (heq : i.offset = j.offset) : i = j := by
  have hdistinct : ((inOrder instructions).map Instruction.offset).Nodup :=
    List.pairwise_map.mpr ((pairwise_inOrder pos h).imp Nat.ne_of_lt)
  exact List.inj_on_of_nodup_map hdistinct (mem_inOrder.mpr hi) (mem_inOrder.mpr hj) heq

namespace Analysis

section

variable {bytes : List UInt8} {clauses : List Clause} {resolver : Resolver} {settings : Settings}
variable {a : Analysis} (h : ofBytes bytes clauses resolver settings = .ok a)

include h

/-- An edge of an analysis joins two instructions on a path. -/
theorem exists_joins_of_mem_edges {e : Edge} (he : e ∈ a.edges.toList) :
    ∃ p ∈ a.paths.toList, ∃ consumer ∈ a.instructions, ∃ producer ∈ a.instructions,
      p.Visits a.blocks consumer ∧ p.Visits a.blocks producer ∧
        e.Joins resolver consumer producer := by
  obtain ⟨hread, hblocks, -, hedges⟩ := ofBytes_eq_ok_iff.mp h
  have hdecoded : ∀ i ∈ a.instructions, i.Decoded := fun i hi => Body.decoded_of_mem hread hi
  have pos : ∀ i ∈ a.instructions, 0 < i.size := fun i hi => (hdecoded i hi).size_pos
  obtain ⟨p, hp, is, hcode, x, j, -, htakes⟩ := (Simulation.mem_toList_iff_takes hedges).mp he
  have hvisits : ∀ i ∈ is, i ∈ a.instructions ∧ p.Visits a.blocks i := by
    intro i hi
    obtain ⟨b, ⟨s, hs, hb⟩, hib⟩ := (Path.mem_code_iff hcode).mp hi
    obtain ⟨hmem, rfl⟩ := (Block.find?_eq_some_iff pos hblocks).mp hb
    exact ⟨Block.mem_of_mem_partition hblocks hmem hib, b, hmem, hs, hib⟩
  obtain ⟨consumer, hj, producer, hk, hjoins⟩ :=
    htakes.exists_joins fun i hi => hdecoded i (hvisits i hi).1
  obtain ⟨hconsumer, hvisited⟩ := hvisits consumer hj
  obtain ⟨hproducer, hvisited'⟩ := hvisits producer hk
  exact ⟨p, hp, consumer, hconsumer, producer, hproducer, hvisited, hvisited', hjoins⟩

/-- A consumer that has an input at a position has one at each lower position. -/
theorem exists_edge_below {e : Edge} (he : e ∈ a.edges.toList) {position : Nat}
    (hlt : position < e.input.position) :
    ∃ producer, ⟨e.consumer, position, producer⟩ ∈ a.edges.toList := by
  obtain ⟨-, -, -, hedges⟩ := ofBytes_eq_ok_iff.mp h
  obtain ⟨p, hp, is, hcode, x, j, hj, htakes⟩ := (Simulation.mem_toList_iff_takes hedges).mp he
  obtain ⟨producer, hbelow⟩ := htakes.exists_below hlt
  exact ⟨producer,
    (Simulation.mem_toList_iff_takes hedges).mpr ⟨p, hp, is, hcode, x, j, hj, hbelow⟩⟩

/-- The positions of a consumer are the lowest ones. -/
theorem exists_positions_eq_range (consumer : Nat) :
    ∃ count, a.edges.positions consumer = List.range count := by
  obtain ⟨-, -, -, hedges⟩ := ofBytes_eq_ok_iff.mp h
  have hrecorded := (Simulation.outcome_run_eq_ok_iff.mp hedges).2
  have hbelow : ∀ {above : Nat}, above ∈ a.edges.positions consumer →
      ∀ position < above, position ∈ a.edges.positions consumer := by
    intro above habove position hlt
    obtain ⟨producer, he⟩ := EdgeSet.mem_positions_iff.mp habove
    exact EdgeSet.mem_positions_iff.mpr (exists_edge_below h he hlt)
  rw [hrecorded] at hbelow ⊢
  exact EdgeSet.exists_positions_eq_range hbelow

end

/-- The data flow of every analysis is well formed. -/
theorem wellFormed_of_ofBytes {bytes : List UInt8} {clauses : List Clause} {resolver : Resolver}
    {settings : Settings} {a : Analysis} (h : ofBytes bytes clauses resolver settings = .ok a) :
    a.WellFormed resolver where
  joins e he := exists_joins_of_mem_edges h he
  below e he position hlt := exists_edge_below h he hlt
  positions i hi := by
    obtain ⟨hread, hblocks, -, -⟩ := ofBytes_eq_ok_iff.mp h
    obtain ⟨count, hcount⟩ := exists_positions_eq_range h i.offset
    refine ⟨count, hcount, ?_⟩
    cases count with
    | zero => exact .inl rfl
    | succ highest =>
      -- The highest position has an edge, and that edge joins this very instruction.
      have hmem : highest ∈ a.edges.positions i.offset := by
        rw [hcount]
        exact List.mem_range.mpr (Nat.lt_succ_self _)
      obtain ⟨producer, he⟩ := EdgeSet.mem_positions_iff.mp hmem
      obtain ⟨_, _, consumer, hconsumer, _, _, _, _, hjoins⟩ := exists_joins_of_mem_edges h he
      have hsame : consumer = i := Block.eq_of_offset_eq
        (fun j hj => (Body.decoded_of_mem hread hj).size_pos) hblocks hconsumer hi
        hjoins.consumer_offset
      obtain ⟨effect, heffect, hpops⟩ := hjoins.taken
      exact .inr ⟨effect, hsame ▸ heffect, hpops⟩
  follows i hi visited m hm offset hnext := by
    rcases (View.nested_of_reaches hm).eq_or_feeds hnext with rfl | ⟨consumer, position, he⟩
    · exact ⟨i, hi, rfl⟩
    · obtain ⟨_, _, _, _, producer, hproducer, _, _, hjoins⟩ := exists_joins_of_mem_edges h he
      exact ⟨producer, hproducer, hjoins.producer_offset⟩

/-- A method that adds its arguments and returns the sum. -/
theorem wellFormed_of_ofBytes_sum :
    ∃ a, ofBytes Body.sum [] .unknown ⟨2, true⟩ = .ok a ∧
      a.edges.toList = [⟨2, 0, 1⟩, ⟨2, 1, 0⟩, ⟨3, 0, 2⟩] ∧ a.WellFormed .unknown := by
  have hok : (ofBytes Body.sum [] .unknown ⟨2, true⟩).bind
      (fun a => .ok a.edges.toList) = .ok [⟨2, 0, 1⟩, ⟨2, 1, 0⟩, ⟨3, 0, 2⟩] := by cbv
  obtain ⟨a, ha, hedges⟩ := bind_eq_ok_iff.mp hok
  exact ⟨a, ha, Except.ok.inj hedges, wellFormed_of_ofBytes ha⟩

end Analysis

end Provenance
