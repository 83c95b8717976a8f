import Provenance.Proofs.Rendering

/-!
# The ways to ask for an expression agree

A value can be asked for as a whole (`View.describe`), input by input (`View.arguments`,
`View.input?`) or producer by producer (`View.alternatives`). The inputs of an instruction are
rendered one after the other with the same set of visited offsets. Rendering leaves that set as it
was (`View.render_recorded`), so each of them is rendered as if it were the only one, and the answers
fit together (`View.entryPoints_agree`).
-/

namespace Provenance

/-- Operations that leave the state as it was do not notice each other. -/
theorem mapM_eq_map {σ α β : Type} {f : α → StateM σ β} {g : α → β} {s : σ}
    (h : ∀ a, f a s = (g a, s)) (as : List α) : as.mapM f s = (as.map g, s) := by
  induction as with
  | nil => rfl
  | cons a as ih =>
    rw [List.mapM_cons]
    simp only [bind, StateT.bind, h, ih]
    rfl

namespace View

/-- The ways to ask for the expression at an offset agree. -/
structure EntryPoints (v : View) (edges : List Edge) (offset : Nat) : Prop where
  /-- Without edges there are no arguments. -/
  leaf : (∀ e ∈ edges, e.consumer ≠ offset) →
    v.describe offset = v.leaf offset ∧ v.arguments offset = []
  /-- With edges there is an expression around the arguments. -/
  call : (∃ e ∈ edges, e.consumer = offset) →
    v.describe offset = v.leaf offset ++ "(" ++ ", ".intercalate (v.arguments offset) ++ ")"
  /-- The arguments are the inputs, the one at the highest position first. -/
  arguments : (v.arguments offset).map some =
    ((recordedPositions edges offset).sort (· ≥ ·)).map (v.input? offset)
  /-- An input is the alternatives for it. -/
  input : ∀ position ∈ recordedPositions edges offset,
    v.input? offset position = some (" or ".intercalate (v.alternatives offset position))
  /-- Each alternative is rendered as if it were the only one. -/
  alternatives : ∀ position, v.alternatives offset position =
    ((recordedProducers edges offset position).sort (· ≤ ·)).map fun producer =>
      (v.render producer {offset}).1

section

variable (instructions : List Instruction) (edges : List Edge) (resolver : Resolver)

/-- The alternatives for an input are the expressions of its producers. -/
theorem alternatives_recorded (offset position : Nat) :
    (recorded instructions edges resolver).alternatives offset position =
      ((recordedProducers edges offset position).sort (· ≤ ·)).map
        (expression instructions edges resolver {offset}) := by
  rw [View.alternatives, producers_recorded,
    mapM_eq_map (render_recorded instructions edges resolver {offset})]

/-- The arguments are the alternatives for each input. -/
theorem arguments_recorded (offset : Nat) :
    (recorded instructions edges resolver).arguments offset =
      ((recordedPositions edges offset).sort (· ≥ ·)).map fun position =>
        " or ".intercalate ((recorded instructions edges resolver).alternatives offset position) := by
  simp only [View.arguments, alternatives_recorded, positions_recorded, reverse_sort,
    producers_recorded]
  rw [mapM_eq_map (g := fun position => " or ".intercalate
    (((recordedProducers edges offset position).sort (· ≤ ·)).map
      (expression instructions edges resolver {offset})))]
  intro position
  simp only [bind, StateT.bind, mapM_eq_map (render_recorded instructions edges resolver {offset})]
  rfl

/-- At a position with an edge there are alternatives. -/
theorem alternatives_ne_nil {offset position : Nat} (h : position ∈ recordedPositions edges offset) :
    (recorded instructions edges resolver).alternatives offset position ≠ [] := by
  obtain ⟨producer, hedge⟩ := mem_recordedPositions.mp h
  have hmem := (Finset.mem_sort (· ≤ ·)).mpr (mem_recordedProducers.mpr hedge)
  rw [alternatives_recorded, ne_eq, List.map_eq_nil_iff]
  exact List.ne_nil_of_mem hmem

/-- The input at a position with an edge is the alternatives for it. -/
theorem input?_recorded {offset position : Nat} (h : position ∈ recordedPositions edges offset) :
    (recorded instructions edges resolver).input? offset position =
      some (" or ".intercalate
        ((recorded instructions edges resolver).alternatives offset position)) := by
  have hne := alternatives_ne_nil instructions edges resolver h
  rw [input?, if_neg (by rwa [List.isEmpty_iff])]

/-- An offset has positions exactly if it has edges. -/
theorem recordedPositions_ne_empty_iff (offset : Nat) :
    recordedPositions edges offset ≠ ∅ ↔ ∃ e ∈ edges, e.consumer = offset := by
  rw [← Finset.nonempty_iff_ne_empty]
  constructor
  · rintro ⟨position, hposition⟩
    obtain ⟨producer, hedge⟩ := mem_recordedPositions.mp hposition
    exact ⟨_, hedge, rfl⟩
  · rintro ⟨⟨consumer, position, producer⟩, hedge, rfl⟩
    exact ⟨position, mem_recordedPositions.mpr ⟨producer, hedge⟩⟩

/-- The last instruction at an offset is what the offset is written as. -/
theorem leaf_recorded {offset : Nat} {last : Instruction}
    (hlast : lastAt instructions offset = some last) :
    (recorded instructions edges resolver).leaf offset = last.text resolver := by
  rw [View.leaf, recorded, instruction?_ofList, hlast]
  rfl

/-- With no edges the expression is the instruction alone. -/
theorem describe_recorded_of_empty {offset : Nat} {last : Instruction}
    (hlast : lastAt instructions offset = some last)
    (hempty : recordedPositions edges offset = ∅) :
    (recorded instructions edges resolver).describe offset =
      (recorded instructions edges resolver).leaf offset := by
  rw [describe, render_recorded, leaf_recorded instructions edges resolver hlast]
  exact expression_eq_text instructions edges resolver hlast Std.ExtTreeSet.not_mem_empty hempty

/-- With edges the expression is the instruction and its arguments. -/
theorem describe_recorded_of_ne_empty {offset : Nat} {last : Instruction}
    (hlast : lastAt instructions offset = some last)
    (hne : recordedPositions edges offset ≠ ∅) :
    (recorded instructions edges resolver).describe offset =
      (recorded instructions edges resolver).leaf offset ++ "(" ++
        ", ".intercalate ((recorded instructions edges resolver).arguments offset) ++ ")" := by
  rw [describe, render_recorded, leaf_recorded instructions edges resolver hlast,
    expression_eq instructions edges resolver hlast Std.ExtTreeSet.not_mem_empty hne,
    arguments_recorded]
  simp only [alternatives_recorded]
  rfl

/-- For any instructions and recorded edges, the ways to ask for the expression of an instruction
agree: with no edges it is the instruction alone, and otherwise the instruction and its arguments,
which are its inputs, each of them the alternatives for it, and each of these rendered on its own. -/
theorem entryPoints_agree {i : Instruction} (hi : i ∈ instructions) :
    (recorded instructions edges resolver).EntryPoints edges i.offset := by
  obtain ⟨last, hlast⟩ : ∃ last, lastAt instructions i.offset = some last := by
    refine Option.isSome_iff_exists.mp (List.find?_isSome.mpr ⟨i, List.mem_reverse.mpr hi, ?_⟩)
    exact decide_eq_true rfl
  have hiff := recordedPositions_ne_empty_iff edges i.offset
  constructor
  · intro hnone
    have hempty : recordedPositions edges i.offset = ∅ := by
      by_contra hne
      obtain ⟨e, he, heq⟩ := hiff.mp hne
      exact hnone e he heq
    refine ⟨describe_recorded_of_empty instructions edges resolver hlast hempty, ?_⟩
    rw [arguments_recorded, hempty, Finset.sort_empty, List.map_nil]
  · intro hsome
    exact describe_recorded_of_ne_empty instructions edges resolver hlast (hiff.mpr hsome)
  · rw [arguments_recorded, List.map_map]
    refine List.map_congr_left fun position hposition => ?_
    exact (input?_recorded instructions edges resolver ((Finset.mem_sort _).mp hposition)).symm
  · intro position hposition
    exact input?_recorded instructions edges resolver hposition
  · intro position
    simp only [alternatives_recorded, render_recorded]

end

/-- A constant and a sum. -/
def sumCode : List Instruction :=
  [⟨0, ⟨0x16, "ldc.i4.0", .none, .sequential, .pop0, .pushI⟩, .none, [0x16]⟩,
    ⟨1, ⟨0x58, "add", .none, .sequential, .pop1Pop1, .push1⟩, .none, [0x58]⟩]

/-- Both inputs of the sum may be the constant, and the first may also be the sum itself. -/
def sumEdges : List Edge :=
  [⟨1, 1, 1⟩, ⟨1, 1, 0⟩, ⟨1, 0, 0⟩]

/-- The expression of the sum contains itself, and the ways to ask for it agree. -/
theorem entryPoints_agree_sum :
    (recorded sumCode sumEdges .unknown).describe 1 =
        "add(ldc.i4.0 or /* recursive IL_0001 */, ldc.i4.0)" ∧
      (recorded sumCode sumEdges .unknown).EntryPoints sumEdges 1 := by
  have hadd : (⟨1, ⟨0x58, "add", .none, .sequential, .pop1Pop1, .push1⟩, .none, [0x58]⟩ :
      Instruction) ∈ sumCode := List.mem_cons_of_mem _ (List.mem_singleton_self _)
  exact ⟨by cbv, entryPoints_agree sumCode sumEdges .unknown hadd⟩

end View

end Provenance
