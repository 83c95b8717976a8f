import Provenance.Proofs.Grammar

/-!
# Code that is moved

Displacements count from the end of their instruction, so a piece of code reads the same wherever it
stands, with its offset and its targets moved along (`Piece.instruction_add`). Only the test that no
target lies before the start depends on the place, and code that passes it passes it further on as
well (`Piece.Reaches.add`). So two bodies written one after the other are decoded as the first and
then, moved by its length, the second (`Body.decode_append`).
-/

namespace Provenance

/-- The operand of an instruction that is moved by `n` bytes. -/
def Operand.moved (n : Nat) : Operand → Operand
  | .target offset => .target (offset + n)
  | .switch targets => .switch (targets.map (· + n))
  | operand => operand

namespace Instruction

/-- The instruction `n` bytes further on. -/
def moved (n : Nat) (i : Instruction) : Instruction :=
  { i with offset := i.offset + n, operand := i.operand.moved n }

/-- The second instruction is the first one `n` bytes further on: it is written with the same bytes,
and its offset and all its targets are higher by `n`. -/
structure MovedBy (n : Nat) (i j : Instruction) : Prop where
  offset : j.offset = i.offset + n
  opcode : j.opcode = i.opcode
  size : j.size = i.size
  bytes : j.bytes = i.bytes
  operand : j.operand = i.operand.moved n
  branchTarget : j.branchTarget? = i.branchTarget?.map (· + n)
  switchTargets : j.switchTargets = i.switchTargets.map (· + n)
  targets : j.targets = i.targets.map (· + n)

/-- Moving an instruction moves its offset and its targets. -/
theorem movedBy_moved (n : Nat) (i : Instruction) : i.MovedBy n (i.moved n) := by
  refine ⟨rfl, rfl, rfl, rfl, rfl, ?_, ?_, ?_⟩
  · simp only [branchTarget?, moved]
    cases i.operand <;> rfl
  · simp only [switchTargets, moved]
    cases i.operand <;> rfl
  · simp only [Instruction.targets, moved]
    cases i.operand <;> rfl

end Instruction

namespace Piece

/-! ## One piece -/

section

variable {p : Piece} {stop : Nat}

/-- A displacement that does not lead before the start does not do so from further on. -/
theorem Reaches.add (h : p.Reaches stop) (n : Nat) : p.Reaches (stop + n) := by
  intro d hd
  have hle := h d hd
  omega

/-- The targets move along. -/
theorem targets_add (h : p.Reaches stop) (n : Nat) :
    p.targets (stop + n) = (p.targets stop).map (· + n) := by
  rw [targets, targets, List.map_map]
  refine List.map_congr_left fun d hd => ?_
  have hle := h d hd
  rw [Function.comp_apply]
  omega

/-- The operand moves along. -/
theorem operand_add (h : p.Reaches stop) (n : Nat) :
    p.operand (stop + n) = (p.operand stop).moved n := by
  have htargets := targets_add h n
  unfold operand
  cases hshape : p.opcode.operand with
  | switch => exact congrArg Operand.switch htargets
  | branchTarget8 | branchTarget32 =>
    simp only [targets, displacements, hshape, List.map_cons, List.map_nil, List.cons.injEq,
      and_true] at htargets
    exact congrArg Operand.target htargets
  | _ => rfl

/-- A piece is the same instruction wherever it stands. -/
theorem instruction_add {offset : Nat} (h : p.Reaches (offset + p.size)) (n : Nat) :
    p.instruction (offset + n) = (p.instruction offset).moved n := by
  rw [instruction, Nat.add_right_comm, operand_add h]
  rfl

end

/-! ## Many pieces -/

/-- Bytes that split into pieces do so further on as well. -/
theorem Splits.add {offset : Nat} {bytes : List UInt8} {ps : List Piece}
    (h : Splits offset bytes ps) (n : Nat) : Splits (offset + n) bytes ps := by
  refine ⟨h.flatten, h.wellFormed, fun k p hp => ?_⟩
  have hreach := (h.reaches k p hp).add n
  rwa [Nat.add_right_comm, Nat.add_right_comm offset] at hreach

/-- Pieces followed by pieces split what is written by both. -/
theorem Splits.append {offset : Nat} {a b : List UInt8} {ps qs : List Piece}
    (ha : Splits offset a ps) (hb : Splits (offset + a.length) b qs) :
    Splits offset (a ++ b) (ps ++ qs) := by
  induction ps generalizing offset a with
  | nil =>
    rw [splits_nil_iff.mp ha] at hb ⊢
    exact hb
  | cons p ps ih =>
    obtain ⟨hp, hreach, rest, rfl, hps⟩ := splits_cons_iff.mp ha
    rw [List.length_append, ← Nat.add_assoc] at hb
    rw [List.cons_append, List.append_assoc]
    exact splits_cons_iff.mpr ⟨hp, hreach, rest ++ b, rfl, ih hps hb⟩

/-- Pieces followed by pieces are listed one after the other. -/
theorem Splits.listing_append {offset : Nat} {a : List UInt8} {ps : List Piece}
    (ha : Splits offset a ps) (qs : List Piece) :
    listing offset (ps ++ qs) = listing offset ps ++ listing (offset + a.length) qs := by
  induction ps generalizing offset a with
  | nil =>
    rw [splits_nil_iff.mp ha]
    rfl
  | cons p ps ih =>
    obtain ⟨-, -, rest, rfl, hps⟩ := splits_cons_iff.mp ha
    rw [List.cons_append, listing_cons, listing_cons, ih hps, List.length_append, Nat.add_assoc]
    rfl

/-- Pieces further on are listed as the moved instructions. -/
theorem Splits.listing_add {offset : Nat} {bytes : List UInt8} {ps : List Piece}
    (h : Splits offset bytes ps) (n : Nat) :
    listing (offset + n) ps = (listing offset ps).map (Instruction.moved n) := by
  induction ps generalizing offset bytes with
  | nil => rfl
  | cons p ps ih =>
    obtain ⟨-, hreach, rest, -, hps⟩ := splits_cons_iff.mp h
    rw [listing_cons, listing_cons, List.map_cons, instruction_add hreach, Nat.add_right_comm,
      ih hps]

end Piece

namespace Body

open Piece

/-- Two bodies that can be decoded can be decoded one after the other. The instructions of the first
are listed as they are, and those of the second follow, each moved by the length of the first. -/
theorem decode_append {a b : List UInt8} {is js : List Instruction} (ha : decode a = .ok is)
    (hb : decode b = .ok js) :
    ∃ ks, decode (a ++ b) = .ok (is ++ ks) ∧
      List.Forall₂ (Instruction.MovedBy a.length) js ks := by
  obtain ⟨ps, hps, rfl⟩ := decode_eq_ok_iff.mp ha
  obtain ⟨qs, hqs, rfl⟩ := decode_eq_ok_iff.mp hb
  refine ⟨(listing 0 qs).map (Instruction.moved a.length), ?_, ?_⟩
  · refine decode_eq_ok_iff.mpr ⟨ps ++ qs, hps.append (hqs.add a.length), ?_⟩
    rw [hps.listing_append, hqs.listing_add]
  · rw [List.forall₂_map_right_iff]
    exact List.forall₂_same.mpr fun i _ => i.movedBy_moved a.length

/-- A branch to itself. -/
def selfLoop : List UInt8 :=
  [0x2B, 0xFE]

/-- A switch and a branch, both to the start. -/
def switchBack : List UInt8 :=
  [0x45, 1, 0, 0, 0, 0xF7, 0xFF, 0xFF, 0xFF, 0x2B, 0xF5]

/-- The switch and the branches keep their relative targets when one body follows the other. -/
theorem decode_append_loops :
    ∃ is js ks, decode selfLoop = .ok is ∧
      decode switchBack = .ok js ∧
      js.map Instruction.targets = [[0], [0]] ∧
      decode (selfLoop ++ switchBack) = .ok (is ++ ks) ∧
      List.Forall₂ (Instruction.MovedBy 2) js ks := by
  have hok : ((decode selfLoop).bind fun _ =>
      (decode switchBack).bind fun js =>
        .ok (js.map Instruction.targets)) = .ok [[0], [0]] := by cbv
  obtain ⟨is, hfirst, hok⟩ := bind_eq_ok_iff.mp hok
  obtain ⟨js, hsecond, hok⟩ := bind_eq_ok_iff.mp hok
  obtain ⟨ks, hboth, hmoved⟩ := decode_append hfirst hsecond
  exact ⟨is, js, ks, hfirst, hsecond, Except.ok.inj hok, hboth, hmoved⟩

end Body

end Provenance
