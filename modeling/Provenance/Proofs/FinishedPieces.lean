import Provenance.Proofs.Grammar
import Provenance.Proofs.Patching

/-!
# The pieces of a finished body

Finishing fills in the displacements of all branches before those of the switches. As it makes no
difference in which order they are filled in, they can be thought of as filled in instruction by
instruction. So a body is finished exactly if the labels of each instruction are within its reach
(`Assembler.Placed.Resolved`), and then consists of the pieces that the instructions are with their
displacements filled in (`Assembler.finish_eq_ok_iff`).
-/

namespace Provenance

namespace Assembler

/-! ## Instructions with their displacements -/

/-- The displacements of a switch. -/
def caseFields (a : Assembler) (stop : Nat) (names : List String) : List UInt8 :=
  names.flatMap fun name => field 4 (a.reach stop name)

/-- The displacements of a switch take four bytes each. -/
@[simp] theorem length_caseFields (a : Assembler) (stop : Nat) (names : List String) :
    (a.caseFields stop names).length = 4 * names.length := by
  induction names with
  | nil => rfl
  | cons name names ih =>
    rw [caseFields, List.flatMap_cons, List.length_append, length_field (.inr rfl), ← caseFields,
      ih, List.length_cons]
    omega

/-- The bytes after the opcode of an instruction that ends at `stop`, with the displacements filled
in. -/
def Item.payload (a : Assembler) (stop : Nat) : Item → List UInt8
  | .code _ payload => payload
  | .branch opcode name => field (fieldWidth opcode) (a.reach stop name)
  | .table _ names =>
    ScalarKind.u32.encode (UInt32.ofNat names.length) ++ a.caseFields stop names

namespace Placed

/-- The piece that an instruction is with its displacements filled in. -/
def piece (a : Assembler) (p : Placed) : Piece :=
  ⟨p.item.opcode, p.item.payload a p.stop⟩

/-- The labels of an instruction are within its reach. -/
def Resolved (a : Assembler) (p : Placed) : Prop :=
  match p.item with
  | .code .. => True
  | .branch opcode name => a.Near p.stop name (span (fieldWidth opcode))
  | .table _ names => ∀ name ∈ names, a.Near p.stop name 0x80000000

/-- The labels of an instruction are within its reach exactly if its displacements fit. -/
theorem resolved_iff {a : Assembler} {p : Placed} :
    p.Resolved a ↔ ∀ s ∈ p.slots, s.Fits a := by
  obtain ⟨position, item⟩ := p
  cases item with
  | code opcode payload => exact iff_of_true trivial (List.forall_mem_nil _)
  | branch opcode name =>
    rw [slots_branch, List.forall_mem_singleton, Resolved, Slot.Fits, stop_branch]
  | table opcode names =>
    rw [slots_table, Resolved]
    constructor
    · intro hnear s hs
      obtain ⟨k, name, hname, rfl⟩ := mem_caseSlots_iff.mp hs
      exact hnear name (List.mem_of_getElem? hname)
    · intro hfits name hname
      obtain ⟨k, hk⟩ := List.mem_iff_getElem?.mp hname
      exact hfits _ (mem_caseSlots_iff.mpr ⟨k, name, hk, rfl⟩)

/-- Filling in displacements does not change the size of an instruction. -/
theorem size_piece (a : Assembler) (p : Placed) : (p.piece a).size = p.item.size := by
  obtain ⟨position, item⟩ := p
  cases item with
  | code opcode payload => rfl
  | branch opcode name =>
    simp [Piece.size, Piece.bytes, piece, Item.payload, Item.size, Item.skeleton, Item.draft,
      Item.opcode, zeros, length_field (fieldWidth_cases opcode)]
  | table opcode names =>
    simp [Piece.size, Piece.bytes, piece, Item.payload, Item.size, Item.skeleton, Item.draft,
      Item.opcode, zeros]

end Placed

/-! ## Finishing -/

section

variable {a : Assembler}

/-- Filling in the displacements of a switch overwrites them in one stretch. -/
theorem foldl_write_caseSlots (position stop : Nat) (names : List String) (code : Array UInt8) :
    (caseSlots position stop names).foldl (Slot.write a) code =
      patch code position (a.caseFields stop names) := by
  induction names generalizing position code with
  | nil => rfl
  | cons name names ih =>
    have hlength : (field 4 (a.reach stop name)).length = 4 := length_field (.inr rfl) _
    have hfields : a.caseFields stop (name :: names) =
        field 4 (a.reach stop name) ++ a.caseFields stop names := rfl
    rw [caseSlots_cons, List.foldl_cons, ih, hfields, patch_append, hlength]
    rfl

/-- Filling in the displacements of an instruction makes it the piece that it is to be. -/
theorem Placed.toList_foldl_write (p : Placed) {code : Array UInt8} {before after : List UInt8}
    (hposition : before.length = p.position)
    (hcode : code.toList = before ++ p.item.skeleton ++ after) :
    (p.slots.foldl (Slot.write a) code).toList = before ++ (p.piece a).bytes ++ after := by
  obtain ⟨position, item⟩ := p
  cases hposition
  cases item with
  | code opcode payload => exact hcode
  | branch opcode name =>
    have hlength : (zeros (fieldWidth opcode)).length =
        (field (fieldWidth opcode) (a.reach (Placed.mk before.length (.branch opcode name)).stop
          name)).length := by
      rw [length_field (fieldWidth_cases opcode), zeros, List.length_replicate]
    have hcode' : code.toList =
        (before ++ opcode.encoding) ++ zeros (fieldWidth opcode) ++ after := by
      rw [hcode, Item.skeleton, ← List.append_assoc]
      rfl
    have hpatch := toList_patch hcode' hlength
    rw [List.length_append] at hpatch
    rw [slots_branch, List.foldl_cons, List.foldl_nil, Slot.write, Slot.bytes]
    dsimp only
    rw [← stop_branch, hpatch, List.append_assoc before]
    rfl
  | table opcode names =>
    have hcount : (ScalarKind.u32.encode (UInt32.ofNat names.length)).length = 4 :=
      ScalarKind.length_encode ..
    have hlength : (zeros (4 * names.length)).length =
        (a.caseFields (Placed.mk before.length (.table opcode names)).stop names).length := by
      rw [length_caseFields, zeros, List.length_replicate]
    have hcode' : code.toList =
        (before ++ opcode.encoding ++ ScalarKind.u32.encode (UInt32.ofNat names.length)) ++
          zeros (4 * names.length) ++ after := by
      rw [hcode]
      simp [Item.skeleton, Item.opcode, Item.draft]
    have hpatch := toList_patch hcode' hlength
    rw [List.length_append, List.length_append, hcount] at hpatch
    rw [slots_table, foldl_write_caseSlots, hpatch]
    simp [Placed.piece, Piece.bytes, Item.payload, Item.opcode]

/-- Filling in the displacements of instructions one after the other makes each the piece that it is
to be. -/
theorem toList_foldl_write_layout (items : List Item) {position : Nat} {code : Array UInt8}
    (before : List UInt8) (hposition : before.length = position)
    (hcode : code.toList = before ++ skeletons items) :
    (((layout position items).flatMap Placed.slots).foldl (Slot.write a) code).toList =
      before ++ (layout position items).flatMap fun p => (p.piece a).bytes := by
  induction items generalizing position code before with
  | nil => exact hcode
  | cons item items ih =>
    rw [skeletons_cons, ← List.append_assoc] at hcode
    have hfirst := (Placed.mk position item).toList_foldl_write (a := a) hposition hcode
    have hnext : (before ++ ((Placed.mk position item).piece a).bytes).length =
        position + item.size := by
      rw [List.length_append, hposition, ← Piece.size, Placed.size_piece]
    rw [layout, List.flatMap_cons, List.foldl_append, ih _ hnext hfirst, List.flatMap_cons,
      List.append_assoc]

variable {items : List Item} (h : Holds a items)

include h

/-- All displacements fit exactly if the labels of each instruction are within its reach. -/
theorem Holds.fits_iff :
    (∀ s ∈ a.pending, s.Fits a) ↔ ∀ p ∈ layout 0 items, p.Resolved a := by
  simp only [h.pending_perm.mem_iff, List.mem_flatMap, Placed.resolved_iff]
  constructor
  · intro hfits p hp s hs
    exact hfits s ⟨p, hp, hs⟩
  · rintro hresolved s ⟨p, hp, hs⟩
    exact hresolved p hp s hs

/-- Filling in all displacements makes the instructions the pieces that they are to be. -/
theorem Holds.toList_foldl_write_pending :
    (a.pending.foldl (Slot.write a) a.code).toList =
      (layout 0 items).flatMap fun p => (p.piece a).bytes := by
  have hbounds := fun s hs => h.bounds_of_mem_pending (s := s) hs
  rw [foldl_write_perm h.pending_perm (fun s hs => (hbounds s hs).2) (fun s hs => (hbounds s hs).1)
    h.pairwise_pending]
  exact toList_foldl_write_layout items [] List.length_nil h.code

/-- A body is finished exactly if all labels that its instructions use are within reach, and then
consists of the pieces that its instructions are. -/
theorem finish_eq_ok_iff {bytes : List UInt8} :
    a.finish = .ok bytes ↔ (∀ p ∈ layout 0 items, p.Resolved a) ∧
      bytes = (layout 0 items).flatMap fun p => (p.piece a).bytes := by
  rw [finish_eq_ok_iff_fits, h.fits_iff, h.toList_foldl_write_pending]

end

end Assembler

end Provenance
