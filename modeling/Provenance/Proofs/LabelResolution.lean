import Provenance.Proofs.Patching

/-!
# When labels can be resolved

The displacements that an assembler has yet to fill in are the references to labels of the branches
and of the switches that were emitted (`Assembler.references`). `Assembler.resolution_run` says of
every assembler that operations can lead to when its labels can be resolved, what finishing changes
and which error it reports.
-/

namespace Provenance

namespace Assembler

namespace Emitted

/-- The displacement of an emitted branch, with which it ends. -/
def branchSlot? (e : Emitted) : Option Slot :=
  match e.emission with
  | .branch mnemonic name => (OpCode.ofName? mnemonic).map fun opcode =>
    let position := e.position + opcode.encoding.length
    ⟨name, position, fieldWidth opcode, position + fieldWidth opcode⟩
  | _ => none

/-- The displacements of an emitted switch, with which it ends. Before them stand its opcode of one
byte and the number of its cases. -/
def caseSlots (e : Emitted) : List Slot :=
  match e.emission with
  | .table names => Assembler.caseSlots (e.position + 5) (e.position + 5 + 4 * names.length) names
  | _ => []

end Emitted

/-- The references of emitted instructions to labels, those of branches first. -/
def references (log : List Emitted) : List Slot :=
  log.filterMap Emitted.branchSlot? ++ log.flatMap Emitted.caseSlots

/-- The opcode of a switch has one byte. -/
theorem length_encoding_of_switch {opcode : OpCode} (h : OpCode.ofName? "switch" = some opcode) :
    opcode.encoding.length = 1 := by
  have : ∀ o ∈ OpCode.ofName? "switch", o.encoding.length = 1 := by decide +kernel
  exact this opcode h

/-- The displacements of an emitted instruction are those of what was written for it. -/
theorem Placed.IsFor.slots_eq {p : Placed} {e : Emitted} (h : p.IsFor e) :
    e.branchSlot? = p.fixup?.map Fixup.slot ∧
      e.caseSlots = p.table?.toList.flatMap TableFixup.slots := by
  obtain ⟨position, item⟩ := p
  obtain ⟨position', emission⟩ := e
  obtain ⟨rfl, hwrites⟩ := h
  cases hwrites with
  | code => exact ⟨rfl, rfl⟩
  | branch hlookup hbranch =>
    simp only [Emitted.branchSlot?, hlookup]
    exact ⟨rfl, rfl⟩
  | @table names opcode hlookup hcount =>
    refine ⟨rfl, ?_⟩
    have hslots := slots_table position' opcode names
    rw [stop_table, length_encoding_of_switch hlookup] at hslots
    exact hslots.symm

/-- What is to be filled in are the references of the emitted instructions. -/
theorem Holds.pending_eq {a : Assembler} {items : List Item} (h : Holds a items)
    {log : List Emitted} (hlog : List.Forall₂ (fun e p => p.IsFor e) log (layout 0 items)) :
    a.pending = references log := by
  rw [pending, references, h.fixups, h.tables, List.map_filterMap,
    List.filterMap_eq_flatMap_toList Placed.table?, List.flatMap_assoc]
  generalize layout 0 items = ps at hlog
  refine congrArg₂ (· ++ ·) ?_ ?_
  · induction hlog with
    | nil => rfl
    | cons hep _ ih => rw [List.filterMap_cons, List.filterMap_cons, hep.slots_eq.1, ih]
  · induction hlog with
    | nil => rfl
    | cons hep _ ih => rw [List.flatMap_cons, List.flatMap_cons, hep.slots_eq.2, ih]

/-- What finishing does to an assembler that has emitted instructions. -/
structure Resolution (a : Assembler) (log : List Emitted) : Prop where
  /-- What is to be filled in are the references of the emitted instructions, of branches first. -/
  pending : a.pending = references log
  /-- They have one byte or four, which lie inside what has been written and do not overlap. -/
  width : ∀ s ∈ references log, s.width = 1 ∨ s.width = 4
  inside : ∀ s ∈ references log, s.position + s.width ≤ a.position
  disjoint : (references log).Pairwise Slot.Disjoint
  /-- The body is finished exactly if all of them fit. -/
  succeeds : (∃ bytes, a.finish = .ok bytes) ↔ ∀ s ∈ references log, s.Fits a
  /-- It is as long as what has been written, has the displacements filled in, and is the same
  otherwise. -/
  length : ∀ bytes, a.finish = .ok bytes → bytes.length = a.position
  filled : ∀ bytes, a.finish = .ok bytes → ∀ s ∈ references log, ∀ k, s.Covers k →
    bytes[k]? = (field s.width (a.reach s.stop s.name))[k - s.position]?
  unchanged : ∀ bytes, a.finish = .ok bytes → ∀ k, (∀ s ∈ references log, ¬ s.Covers k) →
    bytes[k]? = a.code[k]?
  /-- The error is that of the first one that fails. -/
  fails : ∀ e, a.finish = .error e ↔ ∃ before s after, references log = before ++ s :: after ∧
    (∀ t ∈ before, t.Fits a) ∧ s.Fails a e

/-- Labels are resolved exactly if they can be. Whatever the operations, the displacements that are
left to fill in are those of the emitted branches and switches and lie apart from each other inside
the body; finishing fills in all of them and changes nothing else, or reports the first one that
fails, branches before switches. -/
theorem resolution_run (ops : List Operation) :
    Resolution (run ops empty).1 (run ops empty).2 := by
  obtain ⟨items, hholds, hlog⟩ := holds_run ops holds_empty
  rw [List.nil_append] at hholds
  have hpending := hholds.pending_eq hlog
  generalize (run ops empty).1 = a, (run ops empty).2 = log at hholds hpending
  have hbounds : ∀ s ∈ references log, s.position + s.width ≤ a.position ∧
      (s.width = 1 ∨ s.width = 4) := fun s hs => hholds.bounds_of_mem_pending (hpending ▸ hs)
  have hdisjoint := hpending ▸ hholds.pairwise_pending
  have hok := fun bytes => hpending ▸ @finish_eq_ok_iff_fits a bytes
  exact {
    pending := hpending
    width := fun s hs => (hbounds s hs).2
    inside := fun s hs => (hbounds s hs).1
    disjoint := hdisjoint
    succeeds := by
      simp only [hok]
      exact ⟨fun ⟨_, hfits, _⟩ => hfits, fun hfits => ⟨_, hfits, rfl⟩⟩
    length := by
      intro bytes hbytes
      rw [((hok bytes).mp hbytes).2, Array.length_toList, size_foldl_write]
      rfl
    filled := by
      intro bytes hbytes s hs k hk
      have hsize : k < a.code.size := Nat.lt_of_lt_of_le hk.2 (hbounds s hs).1
      rw [((hok bytes).mp hbytes).2, Array.getElem?_toList]
      exact getElem?_foldl_write_of_covers (fun s hs => (hbounds s hs).2) hdisjoint hs hk hsize
    unchanged := by
      intro bytes hbytes k hk
      rw [((hok bytes).mp hbytes).2, Array.getElem?_toList]
      exact getElem?_foldl_write_of_outside (fun s hs => (hbounds s hs).2) hk
    fails := fun e => hpending ▸ finish_eq_error_iff_fails }

end Assembler

end Provenance
