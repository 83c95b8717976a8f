import Mathlib.Data.List.Basic
import Provenance.Proofs.Outcome
import Provenance.Replay

/-!
# What a replay carries out

The replay of a path carries out the instructions of the blocks that the path visits, one after the
other (`Replay.path_eq`), unless it visits an offset where no block starts
(`Replay.exists_code_of_path`). After an error it changes nothing any more
(`Replay.foldl_step_of_fault`).
-/

namespace Provenance

/-- The instructions of the blocks that a path visits, if a block starts at each of its offsets. -/
def Path.code? (blocks : Array Block) (p : Path) : Option (List Instruction) :=
  (p.starts.mapM (Block.find? blocks)).map fun visited => visited.flatMap Block.instructions

namespace Path

variable {blocks : Array Block} {p : Path}

/-- A path has its instructions if a block starts at each of its offsets. -/
theorem exists_code (h : ∀ s ∈ p.starts, ∃ b, Block.find? blocks s = some b) :
    ∃ is, p.code? blocks = some is := by
  obtain ⟨visited, hvisited⟩ := exists_mapM_eq_some h
  exact ⟨_, Option.map_eq_some_iff.mpr ⟨visited, hvisited, rfl⟩⟩

/-- The instructions of a path are those of the blocks that start at its offsets. -/
theorem mem_code_iff {is : List Instruction} (h : p.code? blocks = some is) {i : Instruction} :
    i ∈ is ↔ ∃ b, (∃ s ∈ p.starts, Block.find? blocks s = some b) ∧ i ∈ b.instructions := by
  obtain ⟨visited, hvisited, rfl⟩ := Option.map_eq_some_iff.mp h
  simp only [List.mem_flatMap, mem_iff_of_mapM_eq_some hvisited]

end Path

namespace Instruction

variable {resolver : Resolver} {i : Instruction}

/-- A return takes a value if there is one. -/
theorem effect_of_isReturn (h : i.opcode.isReturn) (isEmpty : Bool) :
    i.effect resolver isEmpty = .ok ⟨if isEmpty then 0 else 1, 0⟩ :=
  if_pos h

/-- An instruction without an effect is no return. -/
theorem not_isReturn {isEmpty : Bool} {e : Error} (h : i.effect resolver isEmpty = .error e) :
    ¬ i.opcode.isReturn := by
  intro hreturn
  rw [effect_of_isReturn hreturn] at h
  cases h

/-- Only a return does something else on the empty stack. -/
theorem effect_congr {isEmpty isEmpty' : Bool} (h : i.opcode.isReturn → isEmpty = isEmpty') :
    i.effect resolver isEmpty = i.effect resolver isEmpty' := by
  unfold effect
  split
  · next hreturn => rw [h hreturn]
  · rfl

end Instruction

namespace Replay

section

variable {resolver : Resolver} {r : Replay} {i : Instruction} {e : Error}

/-- The stack that a replay leaves, if no error stopped it. -/
theorem outcome_eq_ok_iff {stack : List Nat} :
    r.outcome = .ok stack ↔ r.fault? = none ∧ r.stack = stack := by
  unfold outcome
  cases r.fault? <;> simp

/-! ## One instruction -/

@[simp] theorem apply_stack (r : Replay) (i : Instruction) (effect : Effect) :
    (r.apply i effect).stack =
      List.replicate effect.pushes i.offset ++ r.stack.drop effect.pops := rfl

@[simp] theorem apply_edges (r : Replay) (i : Instruction) (effect : Effect) :
    (r.apply i effect).edges = (pops i.offset (r.stack.take effect.pops)).reverse ++ r.edges := rfl

@[simp] theorem apply_fault? (r : Replay) (i : Instruction) (effect : Effect) :
    (r.apply i effect).fault? = r.fault? := rfl

/-- The edges of the pops of an instruction, by position. -/
theorem mem_pops_iff {consumer : Nat} {producers : List Nat} {edge : Edge} :
    edge ∈ pops consumer producers ↔
      edge.consumer = consumer ∧ producers[edge.input.position]? = some edge.input.producer := by
  obtain ⟨c, p, q⟩ := edge
  unfold pops
  rw [List.mem_map]
  refine ⟨fun h => ?_, fun h => ?_⟩
  · obtain ⟨⟨producer, position⟩, hmem, heq⟩ := h
    cases heq
    exact ⟨rfl, List.mem_zipIdx_iff_getElem?.mp hmem⟩
  · obtain ⟨hconsumer, hproducer⟩ := h
    cases hconsumer
    exact ⟨(q, p), List.mem_zipIdx_iff_getElem?.mpr hproducer, rfl⟩

/-- The stack is empty exactly if it has no depth. -/
theorem isEmpty_stack (r : Replay) : r.stack.isEmpty = decide (r.stack.length = 0) := by
  cases r.stack <;> rfl

/-- After an error nothing is carried out. -/
theorem step_of_fault (h : r.fault? = some e) (i : Instruction) : r.step resolver i = r := by
  rw [step, h]

/-- An instruction with an effect is carried out. -/
theorem step_of_effect {effect : Effect} (h : r.fault? = none)
    (heffect : i.effect resolver r.stack.isEmpty = .ok effect) :
    r.step resolver i = r.apply i effect := by
  simp only [step, h, heffect]

/-- An instruction without an effect stops the replay. -/
theorem step_of_error (h : r.fault? = none)
    (heffect : i.effect resolver r.stack.isEmpty = .error e) :
    r.step resolver i = r.fail e := by
  simp only [step, h, heffect]

/-! ## Instructions in a row -/

/-- After an error nothing is carried out any more. -/
theorem foldl_step_of_fault (h : r.fault? = some e) (is : List Instruction) :
    is.foldl (step resolver) r = r :=
  List.foldl_fixed' (step_of_fault h) is

/-- The replay before the instruction at place `k`. -/
def before (resolver : Resolver) (is : List Instruction) (k : Nat) : Replay :=
  (is.take k).foldl (step resolver) {}

/-- From one instruction to the next. -/
theorem before_succ {is : List Instruction} {k : Nat} (hi : is[k]? = some i) :
    before resolver is (k + 1) = (before resolver is k).step resolver i := by
  unfold before
  rw [List.take_add_one, hi, Option.toList_some, List.foldl_append]
  rfl

/-- After the last instruction everything has been carried out. -/
theorem before_length (is : List Instruction) :
    before resolver is is.length = is.foldl (step resolver) {} := by
  rw [before, List.take_length]

/-- A replay without an error had none at any place. -/
theorem fault?_before {is : List Instruction}
    (h : (is.foldl (step resolver) {}).fault? = none) (k : Nat) :
    (before resolver is k).fault? = none := by
  cases hfault : (before resolver is k).fault? with
  | none => rfl
  | some e =>
    have hrest : is.foldl (step resolver) {} = before resolver is k := by
      conv_lhs => rw [← List.take_append_drop k is]
      rw [List.foldl_append]
      exact foldl_step_of_fault hfault _
    rw [hrest, hfault] at h
    cases h

/-- In a replay without an error every instruction has an effect, since without one the replay would
have stopped there. -/
theorem exists_effect_before {is : List Instruction}
    (h : (is.foldl (step resolver) {}).fault? = none) {k : Nat} (hi : is[k]? = some i) :
    ∃ effect, i.effect resolver (before resolver is k).stack.isEmpty = .ok effect := by
  cases heffect : i.effect resolver (before resolver is k).stack.isEmpty with
  | ok effect => exact ⟨effect, rfl⟩
  | error e =>
    have hnone := fault?_before h (k + 1)
    rw [before_succ hi, step_of_error (fault?_before h k) heffect] at hnone
    cases hnone

end

/-! ## Paths -/

section

variable {resolver : Resolver} {blocks : Array Block} {p : Path} {r : Replay}

/-- Entering a block carries out its instructions. -/
theorem enter_eq {start : Nat} {b : Block} (hb : Block.find? blocks start = some b) :
    r.enter resolver blocks p start = b.instructions.foldl (step resolver) r := by
  cases hfault : r.fault? with
  | none => simp only [enter, hfault, hb, block]
  | some e =>
    rw [foldl_step_of_fault hfault]
    simp only [enter, hfault]

/-- Entering blocks one after the other carries out their instructions in a row. -/
theorem foldl_enter_eq {starts : List Nat} {visited : List Block}
    (h : List.Forall₂ (fun start b => Block.find? blocks start = some b) starts visited) :
    starts.foldl (enter resolver blocks p) r =
      (visited.flatMap Block.instructions).foldl (step resolver) r := by
  induction h generalizing r with
  | nil => rfl
  | cons hb _ ih => rw [List.foldl_cons, enter_eq hb, ih, List.flatMap_cons, List.foldl_append]

/-- After an error no block is entered any more. -/
theorem foldl_enter_of_fault {e : Error} (h : r.fault? = some e) (starts : List Nat) :
    starts.foldl (enter resolver blocks p) r = r := by
  refine List.foldl_fixed' (fun start => ?_) starts
  simp only [enter, h]

/-- Without an error a block starts at every offset that was entered. -/
theorem exists_mapM_find? {starts : List Nat}
    (h : (starts.foldl (enter resolver blocks p) r).fault? = none) :
    ∃ visited, starts.mapM (Block.find? blocks) = some visited := by
  simp only [mapM_eq_some_iff]
  induction starts generalizing r with
  | nil => exact ⟨[], .nil⟩
  | cons start rest ih =>
    rw [List.foldl_cons] at h
    obtain ⟨visited, hvisited⟩ := ih h
    cases hb : Block.find? blocks start with
    | some b => exact ⟨b :: visited, .cons hb hvisited⟩
    | none =>
      -- The look-up would have stopped the replay, unless an earlier error had.
      have hfault : ∃ e, (r.enter resolver blocks p start).fault? = some e := by
        cases hr : r.fault? with
        | none => exact ⟨.malformed (.strayPath p start), by simp only [enter, hr, hb, fail]⟩
        | some e => exact ⟨e, by simp only [enter, hr]⟩
      obtain ⟨e, he⟩ := hfault
      rw [foldl_enter_of_fault he, he] at h
      cases h

/-- Replaying a path carries out the instructions of its blocks, starting with the empty stack. -/
theorem path_eq {is : List Instruction} (h : p.code? blocks = some is) :
    path resolver blocks p = is.foldl (step resolver) {} := by
  obtain ⟨visited, hvisited, rfl⟩ := Option.map_eq_some_iff.mp h
  exact foldl_enter_eq (mapM_eq_some_iff.mp hvisited)

/-- A path that is replayed without an error visits blocks only. -/
theorem exists_code_of_path (h : (path resolver blocks p).fault? = none) :
    ∃ is, p.code? blocks = some is := by
  obtain ⟨visited, hvisited⟩ := exists_mapM_find? h
  exact ⟨_, Option.map_eq_some_iff.mpr ⟨visited, hvisited, rfl⟩⟩

end

end Replay

/-- A resolver that knows one static method, which takes an argument. -/
def Resolver.oneCallee : Resolver :=
  SymbolTable.toResolver ⟨[], [(⟨0x06000001⟩, .ofStatic 1)]⟩

end Provenance
