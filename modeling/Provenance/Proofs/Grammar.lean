import Mathlib.Algebra.BigOperators.Group.List.Basic
import Provenance.Instruction.Decode
import Provenance.Proofs.OpCodeTable
import Provenance.Proofs.Outcome
import Provenance.Proofs.Scalars

/-!
# The grammar of method bodies

A method body is a sequence of pieces, each the encoding of an opcode followed by a payload of the
size that the opcode asks for (`Piece.WellFormed`), in which no branch leads before the start
(`Piece.Reaches`). An instruction is read exactly if a piece stands at the front
(`Instruction.decode_eq_ok_iff`), so decoding accepts exactly the bodies of the grammar and lists
their pieces, which are unique (`Body.decode_tiles`).
-/

namespace Provenance

/-- An opcode together with the bytes that follow it. -/
structure Piece where
  opcode : OpCode
  payload : List UInt8

namespace Piece

/-! ## Pieces -/

/-- The bytes of a piece. -/
def bytes (p : Piece) : List UInt8 :=
  p.opcode.encoding ++ p.payload

/-- Number of bytes of a piece. -/
def size (p : Piece) : Nat :=
  p.bytes.length

/-- The payload has the size that the opcode asks for. For a switch this is the number of cases,
as a number of four bytes, and four bytes for each case. -/
def Sized (p : Piece) : Prop :=
  match p.opcode.operand.size? with
  | some size => p.payload.length = size
  | none => ∃ (count : UInt32) (table : List UInt8),
      p.payload = ScalarKind.u32.encode count ++ table ∧ table.length = 4 * count.toNat

/-- The piece has an opcode of the table and a payload of the right size. -/
structure WellFormed (p : Piece) : Prop where
  opcode : p.opcode ∈ OpCode.all
  sized : p.Sized

/-- The displacement of case `k` of a switch. -/
def caseDisplacement (p : Piece) (k : Nat) : Int :=
  (ScalarKind.i32.decode ((p.payload.drop (4 + 4 * k)).take 4)).toInt

/-- The displacements of the branch targets of a piece. -/
def displacements (p : Piece) : List Int :=
  match p.opcode.operand with
  | .branchTarget8 => [(ScalarKind.i8.decode p.payload).toInt]
  | .branchTarget32 => [(ScalarKind.i32.decode p.payload).toInt]
  | .switch => (List.range ((p.payload.length - 4) / 4)).map p.caseDisplacement
  | _ => []

/-- No target of a piece that ends at `stop` lies before the start of the body. -/
def Reaches (p : Piece) (stop : Nat) : Prop :=
  ∀ d ∈ p.displacements, 0 ≤ (stop : Int) + d

/-- The targets of a piece that ends at `stop`. -/
def targets (p : Piece) (stop : Nat) : List Nat :=
  p.displacements.map fun d => ((stop : Int) + d).toNat

/-- The operand of a piece that ends at `stop`. -/
def operand (p : Piece) (stop : Nat) : Operand :=
  match p.opcode.operand with
  | .none => .none
  | .int8 => .int8 (ScalarKind.i8.decode p.payload)
  | .int32 => .int32 (ScalarKind.i32.decode p.payload)
  | .int64 => .int64 (ScalarKind.i64.decode p.payload)
  | .float32 => .float32 (ScalarKind.f32.decode p.payload)
  | .float64 => .float64 (ScalarKind.f64.decode p.payload)
  | .var8 => .var (ScalarKind.u8.decode p.payload).toUInt16
  | .var16 => .var (ScalarKind.u16.decode p.payload)
  | .branchTarget8 => .target ((stop : Int) + (ScalarKind.i8.decode p.payload).toInt).toNat
  | .branchTarget32 => .target ((stop : Int) + (ScalarKind.i32.decode p.payload).toInt).toNat
  | .token _ => .token ⟨ScalarKind.u32.decode p.payload⟩
  | .switch => .switch (p.targets stop)

/-- The instruction that a piece is at an offset. -/
def instruction (p : Piece) (offset : Nat) : Instruction :=
  ⟨offset, p.opcode, p.operand (offset + p.size), p.bytes⟩

@[simp] theorem instruction_offset (p : Piece) (offset : Nat) :
    (p.instruction offset).offset = offset := rfl

@[simp] theorem instruction_opcode (p : Piece) (offset : Nat) :
    (p.instruction offset).opcode = p.opcode := rfl

@[simp] theorem instruction_bytes (p : Piece) (offset : Nat) :
    (p.instruction offset).bytes = p.bytes := rfl

@[simp] theorem instruction_size (p : Piece) (offset : Nat) :
    (p.instruction offset).size = p.size := rfl

@[simp] theorem instruction_next (p : Piece) (offset : Nat) :
    (p.instruction offset).next = offset + p.size := rfl

/-- The size of a piece is that of its opcode and its payload. -/
theorem size_eq (p : Piece) : p.size = p.opcode.size + p.payload.length := by
  rw [size, bytes, List.length_append, OpCode.length_encoding]

/-- A piece has at least one byte. -/
theorem size_pos (p : Piece) : 0 < p.size := by
  rw [size_eq]
  exact Nat.add_pos_left p.opcode.size_pos _

/-- What is left after an instruction, whose first byte is already taken off, is what follows its
piece. -/
theorem drop_of_cons_eq {p : Piece} {first : UInt8} {tail rest : List UInt8}
    (h : first :: tail = p.bytes ++ rest) : tail.drop (p.size - 1) = rest := by
  have hdrop := congrArg (List.drop p.size) h
  rwa [List.drop_left' (i := p.size) rfl, ← Nat.sub_add_cancel p.size_pos,
    List.drop_succ_cons] at hdrop

/-- The targets of an instruction are those of its piece. -/
theorem instruction_targets (p : Piece) (offset : Nat) :
    (p.instruction offset).targets = p.targets (offset + p.size) := by
  simp only [Instruction.targets, instruction, operand, targets, displacements]
  cases p.opcode.operand <;> rfl

/-- What stands at the front of a body decides the payload. -/
theorem payload_inj {p q : Piece} {rest rest' : List UInt8} (hp : p.Sized) (hq : q.Sized)
    (hopcode : p.opcode = q.opcode) (h : p.payload ++ rest = q.payload ++ rest') :
    p.payload = q.payload ∧ rest = rest' := by
  refine List.append_inj h ?_
  unfold Sized at hp hq
  rw [← hopcode] at hq
  split at hp
  · next size hsize =>
    rw [hsize] at hq
    exact hp.trans hq.symm
  · next hsize =>
    rw [hsize] at hq
    obtain ⟨count, table, hpay, htable⟩ := hp
    obtain ⟨count', table', hpay', htable'⟩ := hq
    rw [hpay, hpay', List.append_assoc, List.append_assoc] at h
    obtain ⟨hcount, -⟩ := List.append_inj h (by simp)
    have : count = count' := by
      rw [← ScalarKind.decode_encode .u32 count, hcount, ScalarKind.decode_encode]
    rw [hpay, hpay', List.length_append, List.length_append, htable, htable', hcount, this]

/-- What stands at the front of a body decides the piece. -/
theorem bytes_append_inj {p q : Piece} {rest rest' : List UInt8} (hp : p.WellFormed)
    (hq : q.WellFormed) (h : p.bytes ++ rest = q.bytes ++ rest') : p = q ∧ rest = rest' := by
  rw [bytes, bytes, List.append_assoc, List.append_assoc] at h
  obtain ⟨hopcode, h⟩ := Instruction.encoding_append_inj hp.opcode hq.opcode h
  obtain ⟨hpayload, hrest⟩ := payload_inj hp.sized hq.sized hopcode h
  obtain ⟨opcode, payload⟩ := p
  obtain ⟨opcode', payload'⟩ := q
  cases hopcode
  cases hpayload
  exact ⟨rfl, hrest⟩

end Piece

/-! ## Reading one instruction -/

namespace Operand

/-- A displacement leads to an offset unless it leads before the start. -/
theorem relative?_eq_some_iff {stop target : Nat} {d : Int} :
    relative? stop d = some target ↔ 0 ≤ (stop : Int) + d ∧ target = ((stop : Int) + d).toNat := by
  rw [relative?, Int.mem_toNat?]
  omega

/-- All displacements lead to offsets unless one leads before the start. -/
theorem mapM_relative?_eq_some_iff {stop : Nat} {ds : List Int} {targets : List Nat} :
    ds.mapM (relative? stop) = some targets ↔
      (∀ d ∈ ds, 0 ≤ (stop : Int) + d) ∧ targets = ds.map fun d => ((stop : Int) + d).toNat := by
  rw [mapM_eq_some_iff]
  induction ds generalizing targets with
  | nil => simp
  | cons d ds ih =>
    simp only [List.forall₂_cons_left_iff, ih]
    simp only [relative?_eq_some_iff, List.forall_mem_cons, List.map_cons]
    constructor
    · rintro ⟨_, _, ⟨hd, rfl⟩, ⟨hds, rfl⟩, rfl⟩
      exact ⟨⟨hd, hds⟩, rfl⟩
    · rintro ⟨⟨hd, hds⟩, rfl⟩
      exact ⟨_, _, ⟨hd, rfl⟩, ⟨hds, rfl⟩, rfl⟩

/-- A table of `n` cases is read four bytes at a time. -/
theorem readDisplacements_eq {n : Nat} {table : List UInt8} (h : table.length = 4 * n)
    (done : List Int) :
    readDisplacements table done = done.reverse ++ (List.range n).map fun k =>
      (ScalarKind.i32.decode ((table.drop (4 * k)).take 4)).toInt := by
  induction n generalizing table done with
  | zero =>
    rw [List.eq_nil_of_length_eq_zero h]
    simp [readDisplacements]
  | succ n ih =>
    match table, h with
    | a :: b :: c :: d :: rest, h =>
      have hrest : rest.length = 4 * n := by simpa [Nat.mul_add] using h
      rw [readDisplacements, ih hrest, List.range_succ_eq_map]
      simp [Nat.mul_add, Function.comp_def]

/-- The displacements of a switch are those that its table holds. -/
theorem displacements_eq {p : Piece} (hp : p.Sized) (hswitch : p.opcode.operand = .switch) :
    displacements (p.payload.drop 4) = p.displacements := by
  simp only [Piece.Sized, hswitch, OperandShape.size?] at hp
  obtain ⟨count, table, hpayload, htable⟩ := hp
  have hcount : (ScalarKind.u32.encode count).length = 4 := ScalarKind.length_encode ..
  have hdrop (k : Nat) : p.payload.drop (4 + k) = table.drop k := by
    rw [hpayload, ← List.drop_drop, List.drop_left' hcount]
  have hcases : (p.payload.length - 4) / 4 = count.toNat := by
    rw [hpayload, List.length_append, hcount, htable]
    omega
  have htail : p.payload.drop 4 = table := hdrop 0
  rw [displacements, htail, readDisplacements_eq htable]
  simp only [Piece.displacements, hswitch, hcases, List.reverse_nil, List.nil_append]
  refine List.map_congr_left fun k _ => ?_
  rw [Piece.caseDisplacement, hdrop]

/-- A payload of the right size is an operand unless a target lies before the start. -/
theorem decode?_eq_some_iff {p : Piece} (hp : p.Sized) {stop : Nat} {operand : Operand} :
    decode? p.opcode.operand stop p.payload = some operand ↔
      p.Reaches stop ∧ operand = p.operand stop := by
  cases hshape : p.opcode.operand with
  | switch =>
    simp only [decode?, Option.map_eq_some_iff, displacements_eq hp hshape,
      mapM_relative?_eq_some_iff]
    simp only [Piece.Reaches, Piece.operand, hshape, Piece.targets]
    constructor
    · rintro ⟨_, ⟨hreach, rfl⟩, rfl⟩
      exact ⟨hreach, rfl⟩
    · rintro ⟨hreach, rfl⟩
      exact ⟨_, ⟨hreach, rfl⟩, rfl⟩
  | branchTarget8 | branchTarget32 =>
    simp only [decode?, Option.map_eq_some_iff, relative?_eq_some_iff]
    simp only [Piece.Reaches, Piece.displacements, Piece.operand, hshape, List.mem_singleton,
      forall_eq]
    constructor
    · rintro ⟨_, ⟨hreach, rfl⟩, rfl⟩
      exact ⟨hreach, rfl⟩
    · rintro ⟨hreach, rfl⟩
      exact ⟨_, ⟨hreach, rfl⟩, rfl⟩
  | _ => simp [decode?, Piece.Reaches, Piece.displacements, Piece.operand, hshape, eq_comm]

end Operand

namespace Instruction

/-- A switch table is never too large for a machine word: its number of cases takes four bytes. -/
theorem not_wordLimit_le {count : List UInt8} (h : count.length = 4) :
    ¬ wordLimit ≤ 4 * Bytes.ofLittleEndian count := by
  have hlt := Bytes.ofLittleEndian_lt count
  rw [h] at hlt
  rw [wordLimit]
  omega

/-- A payload is read exactly if one of the right size stands at the front. -/
theorem decodePayload_eq_ok_iff {offset : Nat} {opcode : OpCode} {bytes payload : List UInt8} :
    decodePayload offset opcode bytes = .ok payload ↔
      (Piece.mk opcode payload).Sized ∧ ∃ rest, bytes = payload ++ rest := by
  unfold decodePayload Piece.Sized
  cases opcode.operand.size? with
  | some size =>
    simp only
    constructor
    · intro h
      split at h
      · next hsplit =>
        cases h
        obtain ⟨hbytes, hlength⟩ := Bytes.split?_eq_some_iff.mp hsplit
        exact ⟨hlength, _, hbytes⟩
      · cases h
    · rintro ⟨hlength, rest, rfl⟩
      rw [Bytes.split?_eq_some_iff.mpr ⟨rfl, hlength⟩]
  | none =>
    simp only
    constructor
    · intro h
      split at h
      · cases h
      next count table hcount =>
      obtain ⟨rfl, hlength⟩ := Bytes.split?_eq_some_iff.mp hcount
      rw [if_neg (not_wordLimit_le hlength)] at h
      split at h
      · next hcases =>
        cases h
        obtain ⟨rfl, htable⟩ := Bytes.split?_eq_some_iff.mp hcases
        have hbits := @ScalarKind.toBits_ofBits .u32 _ (hlength ▸ Bytes.ofLittleEndian_lt count)
        refine ⟨⟨ScalarKind.u32.decode count, _, ?_, htable.trans (congrArg (4 * ·) hbits.symm)⟩,
          _, (List.append_assoc ..).symm⟩
        rw [ScalarKind.encode_decode hlength]
      · cases h
    · rintro ⟨⟨count, table, rfl, htable⟩, rest, rfl⟩
      have hcount : Bytes.ofLittleEndian (ScalarKind.u32.encode count) = count.toNat :=
        Bytes.ofLittleEndian_toLittleEndian (ScalarKind.toBits_lt .u32 count)
      have hlength : (ScalarKind.u32.encode count).length = 4 := ScalarKind.length_encode ..
      rw [List.append_assoc, Bytes.split?_eq_some_iff.mpr ⟨rfl, hlength⟩]
      have hsmall := not_wordLimit_le hlength
      rw [hcount] at hsmall
      simp only [hcount, if_neg hsmall, Bytes.split?_eq_some_iff.mpr ⟨rfl, htable⟩]

/-- An instruction is read exactly if a piece of the grammar stands at the front. -/
theorem decode_eq_ok_iff {offset : Nat} {bytes : List UInt8} {i : Instruction} :
    decode offset bytes = .ok i ↔ ∃ p : Piece, p.WellFormed ∧ p.Reaches (offset + p.size) ∧
      (∃ rest, bytes = p.bytes ++ rest) ∧ i = p.instruction offset := by
  rw [decode, bind_eq_ok_iff]
  constructor
  · rintro ⟨⟨opcode, rest⟩, hopcode, h⟩
    obtain ⟨payload, hpayload, hread⟩ := bind_eq_ok_iff.mp h
    obtain ⟨hmem, rfl⟩ := decodeOpCode_eq_ok_iff.mp hopcode
    obtain ⟨hsized, rest, rfl⟩ := decodePayload_eq_ok_iff.mp hpayload
    have hsize : opcode.size + payload.length = (Piece.mk opcode payload).size :=
      (Piece.size_eq ⟨opcode, payload⟩).symm
    simp only [hsize] at hread
    split at hread
    · next operand hoperand =>
      cases hread
      obtain ⟨hreach, rfl⟩ := (Operand.decode?_eq_some_iff hsized).mp hoperand
      exact ⟨⟨opcode, payload⟩, ⟨hmem, hsized⟩, hreach, ⟨rest, (List.append_assoc ..).symm⟩, rfl⟩
    · cases hread
  · rintro ⟨p, hp, hreach, ⟨rest, rfl⟩, rfl⟩
    refine ⟨(p.opcode, p.payload ++ rest), decodeOpCode_eq_ok_iff.mpr ⟨hp.opcode, ?_⟩,
      bind_eq_ok_iff.mpr ⟨p.payload, decodePayload_eq_ok_iff.mpr ⟨hp.sized, rest, rfl⟩, ?_⟩⟩
    · exact List.append_assoc ..
    · simp only [← Piece.size_eq p, (Operand.decode?_eq_some_iff hp.sized).mpr ⟨hreach, rfl⟩]
      rfl

end Instruction

/-! ## Reading a body -/

namespace Piece

/-- Where piece `k` starts: after the pieces before it. -/
def start (ps : List Piece) (k : Nat) : Nat :=
  ((ps.take k).map size).sum

/-- The bytes from `offset` of a body on split into pieces of the grammar. -/
structure Splits (offset : Nat) (bytes : List UInt8) (ps : List Piece) : Prop where
  flatten : ps.flatMap Piece.bytes = bytes
  wellFormed : ∀ p ∈ ps, p.WellFormed
  reaches : ∀ (k : Nat) (p : Piece), ps[k]? = some p → p.Reaches (offset + start ps k + p.size)

/-- The instructions that pieces are from `offset` on. -/
def listing (offset : Nat) (ps : List Piece) : List Instruction :=
  ps.mapIdx fun k p => p.instruction (offset + start ps k)

@[simp] theorem start_zero (ps : List Piece) : start ps 0 = 0 := rfl

@[simp] theorem start_cons_succ (p : Piece) (ps : List Piece) (k : Nat) :
    start (p :: ps) (k + 1) = p.size + start ps k := by
  simp [start]

/-- A piece starts where the one before it stops. -/
theorem start_succ {ps : List Piece} {k : Nat} {p : Piece} (h : ps[k]? = some p) :
    start ps (k + 1) = start ps k + p.size := by
  simp [start, List.take_add_one, h]

/-- A piece and those after it are what is left of the bytes where it starts. -/
theorem drop_start {ps : List Piece} {k : Nat} {p : Piece} (h : ps[k]? = some p) :
    (ps.flatMap Piece.bytes).drop (start ps k) =
      p.bytes ++ (ps.drop (k + 1)).flatMap Piece.bytes := by
  induction ps generalizing k with
  | nil => cases h
  | cons q ps ih =>
    cases k with
    | zero =>
      cases h
      rfl
    | succ k =>
      rw [start_cons_succ, List.flatMap_cons, size, ← List.drop_drop, List.drop_left]
      exact ih h

/-- After all pieces all bytes are used up. -/
theorem start_length (ps : List Piece) : start ps ps.length = (ps.flatMap Piece.bytes).length := by
  rw [start, List.take_length, List.length_flatMap]
  rfl

@[simp] theorem length_listing (offset : Nat) (ps : List Piece) :
    (listing offset ps).length = ps.length :=
  List.length_mapIdx ..

/-- Piece by piece, what is listed. -/
@[simp] theorem getElem?_listing (offset : Nat) (ps : List Piece) (k : Nat) :
    (listing offset ps)[k]? = ps[k]?.map fun p => p.instruction (offset + start ps k) :=
  List.getElem?_mapIdx ..

/-- Listing pieces keeps their bytes. -/
theorem map_bytes_listing (offset : Nat) (ps : List Piece) :
    (listing offset ps).map Instruction.bytes = ps.map Piece.bytes := by
  refine List.ext_getElem? fun k => ?_
  simp [Function.comp_def]

/-- The first piece is listed at the offset, and the others after it. -/
theorem listing_cons (offset : Nat) (p : Piece) (ps : List Piece) :
    listing offset (p :: ps) = p.instruction offset :: listing (offset + p.size) ps := by
  simp [listing, List.mapIdx_cons, Nat.add_assoc]

/-- Only nothing splits into no pieces. -/
theorem splits_nil_iff {offset : Nat} {bytes : List UInt8} :
    Splits offset bytes [] ↔ bytes = [] := by
  refine ⟨fun h => h.flatten.symm, fun h => ⟨h.symm, fun _ hp => (nomatch hp), ?_⟩⟩
  intro k p hp
  rw [List.getElem?_nil] at hp
  cases hp

/-- Bytes split into a piece and others if the piece stands at the front and the rest splits into
the others. -/
theorem splits_cons_iff {offset : Nat} {bytes : List UInt8} {p : Piece} {ps : List Piece} :
    Splits offset bytes (p :: ps) ↔ p.WellFormed ∧ p.Reaches (offset + p.size) ∧
      ∃ rest, bytes = p.bytes ++ rest ∧ Splits (offset + p.size) rest ps := by
  constructor
  · intro h
    obtain ⟨hp, hps⟩ := List.forall_mem_cons.mp h.wellFormed
    refine ⟨hp, h.reaches 0 p rfl, ps.flatMap Piece.bytes, h.flatten.symm, rfl, hps, ?_⟩
    intro k q hq
    have := h.reaches (k + 1) q hq
    rwa [start_cons_succ, ← Nat.add_assoc offset] at this
  · rintro ⟨hp, hreach, rest, rfl, h⟩
    refine ⟨congrArg (p.bytes ++ ·) h.flatten, List.forall_mem_cons.mpr ⟨hp, h.wellFormed⟩, ?_⟩
    rintro (_ | k) q hq
    · cases hq
      exact hreach
    · rw [start_cons_succ, ← Nat.add_assoc offset]
      exact h.reaches k q hq

/-- There is at most one split. -/
theorem Splits.unique {offset : Nat} {bytes : List UInt8} {ps qs : List Piece}
    (h : Splits offset bytes ps) (h' : Splits offset bytes qs) : ps = qs := by
  induction ps generalizing offset bytes qs with
  | nil =>
    cases splits_nil_iff.mp h
    cases qs with
    | nil => rfl
    | cons q qs =>
      -- a piece has bytes, so none stands in front of nothing
      obtain ⟨-, -, rest, hbytes, -⟩ := splits_cons_iff.mp h'
      have := q.size_pos
      simp [(List.nil_eq_append_iff.mp hbytes).1, size] at this
  | cons p ps ih =>
    obtain ⟨hp, -, rest, rfl, hps⟩ := splits_cons_iff.mp h
    cases qs with
    | nil =>
      have := p.size_pos
      simp [(List.append_eq_nil_iff.mp (splits_nil_iff.mp h')).1, size] at this
    | cons q qs =>
      obtain ⟨hq, -, rest', hbytes, hqs⟩ := splits_cons_iff.mp h'
      obtain ⟨rfl, rfl⟩ := bytes_append_inj hp hq hbytes
      rw [ih hps hqs]

end Piece

namespace Body

open Piece

/-- Reading goes through exactly if the bytes split into pieces, which it lists. -/
theorem readFrom_iff {offset : Nat} {bytes : List UInt8} {done is : List Instruction} :
    readFrom offset bytes done = ⟨is, none⟩ ↔
      ∃ ps, Splits offset bytes ps ∧ is = done.reverse ++ listing offset ps := by
  fun_induction readFrom offset bytes done with
  | case1 offset done =>
    constructor
    · intro h
      cases h
      exact ⟨[], splits_nil_iff.mpr rfl, (List.append_nil _).symm⟩
    · rintro ⟨ps, hps, rfl⟩
      rw [hps.unique (splits_nil_iff.mpr rfl)]
      simp [listing]
  | case2 offset done first rest stop hread =>
    refine ⟨nofun, ?_⟩
    rintro ⟨_ | ⟨p, ps⟩, hps, -⟩
    · cases splits_nil_iff.mp hps
    · obtain ⟨hp, hreach, tail, hbytes, -⟩ := splits_cons_iff.mp hps
      have := Instruction.decode_eq_ok_iff.mpr ⟨p, hp, hreach, ⟨tail, hbytes⟩, rfl⟩
      rw [hread] at this
      cases this
  | case3 offset done first rest i hread ih =>
    obtain ⟨p, hp, hreach, ⟨tail, hbytes⟩, rfl⟩ := Instruction.decode_eq_ok_iff.mp hread
    rw [ih, Piece.instruction_next, Piece.instruction_size, drop_of_cons_eq hbytes]
    constructor
    · rintro ⟨ps, hps, rfl⟩
      refine ⟨p :: ps, splits_cons_iff.mpr ⟨hp, hreach, tail, hbytes, hps⟩, ?_⟩
      simp [listing_cons]
    · rintro ⟨_ | ⟨q, ps⟩, hps, rfl⟩
      · cases splits_nil_iff.mp hps
      · obtain ⟨hq, -, tail', hbytes', hps⟩ := splits_cons_iff.mp hps
        obtain ⟨rfl, rfl⟩ := bytes_append_inj hp hq (hbytes ▸ hbytes')
        refine ⟨ps, hps, ?_⟩
        simp [listing_cons]

/-- A body is decoded exactly if it splits into pieces, which are listed. -/
theorem decode_eq_ok_iff {bytes : List UInt8} {is : List Instruction} :
    decode bytes = .ok is ↔ ∃ ps, Splits 0 bytes ps ∧ is = listing 0 ps := by
  have hread := @readFrom_iff 0 bytes [] is
  rw [List.reverse_nil] at hread
  simp only [List.nil_append] at hread
  rw [← hread, decode, read]
  generalize readFrom 0 bytes [] = body
  obtain ⟨instructions, _ | error⟩ := body
  · simp
  · simp

/-- The instructions list the pieces of a body: one for each, which stands where the earlier pieces
stop, and the last of which ends with the body. -/
structure Lists (bytes : List UInt8) (ps : List Piece) (is : List Instruction) : Prop where
  length : is.length = ps.length
  offset : ∀ (k : Nat) (i : Instruction), is[k]? = some i → i.offset = start ps k
  piece : ∀ (k : Nat) (i : Instruction) (p : Piece), is[k]? = some i → ps[k]? = some p →
    i.opcode = p.opcode ∧ i.size = p.size ∧ i.bytes = p.bytes ∧
      i.operand = p.operand (start ps k + p.size)
  flatten : is.flatMap Instruction.bytes = bytes
  last : ∀ i ∈ is.getLast?, i.next = bytes.length

/-- The listing of a split lists its pieces. -/
theorem lists_listing {bytes : List UInt8} {ps : List Piece} (h : Splits 0 bytes ps) :
    Lists bytes ps (listing 0 ps) where
  length := length_listing ..
  offset k i hi := by
    rw [getElem?_listing, Option.map_eq_some_iff] at hi
    obtain ⟨p, -, rfl⟩ := hi
    exact Nat.zero_add _
  piece k i p hi hp := by
    rw [getElem?_listing, hp] at hi
    cases hi
    rw [Nat.zero_add]
    exact ⟨rfl, rfl, rfl, rfl⟩
  flatten := by
    rw [← h.flatten, List.flatMap_def, List.flatMap_def, map_bytes_listing]
  last i hi := by
    rw [Option.mem_def, List.getLast?_eq_getElem?, length_listing, getElem?_listing,
      Option.map_eq_some_iff] at hi
    obtain ⟨p, hp, rfl⟩ := hi
    have hpos : 0 < ps.length := Nat.zero_lt_of_lt (List.getElem?_eq_some_iff.mp hp).1
    rw [instruction_next, Nat.zero_add, ← start_succ hp, Nat.sub_add_cancel hpos, start_length,
      h.flatten]

/-- Pieces are listed in one way only. -/
theorem Lists.eq_listing {bytes : List UInt8} {ps : List Piece} {is : List Instruction}
    (h : Lists bytes ps is) : is = listing 0 ps := by
  refine List.ext_getElem? fun k => ?_
  rw [getElem?_listing, Nat.zero_add]
  cases hi : is[k]? with
  | none =>
    rw [List.getElem?_eq_none_iff, h.length, ← List.getElem?_eq_none_iff] at hi
    rw [hi]
    rfl
  | some i =>
    have hk : k < ps.length := h.length ▸ (List.getElem?_eq_some_iff.mp hi).1
    have hp := List.getElem?_eq_getElem hk
    obtain ⟨hopcode, -, hbytes, hoperand⟩ := h.piece k i _ hi hp
    have hoffset := h.offset k i hi
    rw [hp, Option.map_some, Option.some_inj]
    obtain ⟨offset, opcode, operand, bytes⟩ := i
    cases hopcode
    cases hbytes
    cases hoperand
    cases hoffset
    rfl

/-- Decoding accepts exactly the bodies of the grammar. A body splits in one way only, and what is
decoded lists its pieces. -/
theorem decode_tiles (bytes : List UInt8) :
    ((∃ is, decode bytes = .ok is) ↔ ∃ ps, Splits 0 bytes ps) ∧
      (∀ ps qs, Splits 0 bytes ps → Splits 0 bytes qs → ps = qs) ∧
      ∀ is, decode bytes = .ok is ↔ ∃ ps, Splits 0 bytes ps ∧ Lists bytes ps is := by
  refine ⟨?_, fun ps qs hps hqs => hps.unique hqs, fun is => ?_⟩
  · simp only [decode_eq_ok_iff]
    constructor
    · rintro ⟨_, ps, hps, -⟩
      exact ⟨ps, hps⟩
    · rintro ⟨ps, hps⟩
      exact ⟨listing 0 ps, ps, hps, rfl⟩
  · rw [decode_eq_ok_iff]
    refine exists_congr fun ps => and_congr_right fun hps => ?_
    refine ⟨?_, Lists.eq_listing⟩
    rintro rfl
    exact lists_listing hps

end Body

/-! ## Instructions that were read -/

/-- An instruction that was read somewhere. -/
def Instruction.Decoded (i : Instruction) : Prop :=
  ∃ offset bytes, Instruction.decode offset bytes = .ok i

/-- An instruction that was read has at least one byte. -/
theorem Instruction.Decoded.size_pos {i : Instruction} (h : i.Decoded) : 0 < i.size := by
  obtain ⟨offset, bytes, hread⟩ := h
  obtain ⟨p, -, -, -, rfl⟩ := Instruction.decode_eq_ok_iff.mp hread
  exact p.size_pos

/-- Pieces are listed from the offset on. -/
theorem Piece.le_offset_of_mem_listing {offset : Nat} {ps : List Piece} {i : Instruction}
    (h : i ∈ listing offset ps) : offset ≤ i.offset := by
  obtain ⟨k, hk⟩ := List.mem_iff_getElem?.mp h
  rw [getElem?_listing, Option.map_eq_some_iff] at hk
  obtain ⟨p, -, rfl⟩ := hk
  exact Nat.le_add_right ..

/-- Pieces are listed in ascending order of their offsets. -/
theorem Piece.pairwise_listing (offset : Nat) (ps : List Piece) :
    (listing offset ps).Pairwise (·.offset < ·.offset) := by
  induction ps generalizing offset with
  | nil => exact .nil
  | cons p ps ih =>
    rw [listing_cons]
    refine .cons (fun j hj => ?_) (ih _)
    have hafter := le_offset_of_mem_listing hj
    have hpos := p.size_pos
    rw [instruction_offset]
    omega

/-- An instruction stands in a body if it is what is read there at its offset. -/
def Instruction.StandsIn (bytes : List UInt8) (i : Instruction) : Prop :=
  Instruction.decode i.offset (bytes.drop i.offset) = .ok i

/-- At an offset of a body there stands at most one instruction. -/
theorem Instruction.StandsIn.eq_of_offset_eq {bytes : List UInt8} {i j : Instruction}
    (hi : i.StandsIn bytes) (hj : j.StandsIn bytes) (h : i.offset = j.offset) : i = j := by
  unfold StandsIn at hi hj
  rw [h, hj] at hi
  exact (Except.ok.inj hi).symm

/-- The instructions of a body that was decoded stand in it. -/
theorem Body.standsIn_of_mem {bytes : List UInt8} {is : List Instruction}
    (h : Body.decode bytes = .ok is) {i : Instruction} (hi : i ∈ is) : i.StandsIn bytes := by
  obtain ⟨ps, hps, rfl⟩ := Body.decode_eq_ok_iff.mp h
  obtain ⟨k, hk⟩ := List.mem_iff_getElem?.mp hi
  rw [Piece.getElem?_listing, Option.map_eq_some_iff] at hk
  obtain ⟨p, hp, rfl⟩ := hk
  have hdrop := Piece.drop_start hp
  rw [hps.flatten, ← Nat.zero_add (Piece.start ps k)] at hdrop
  exact Instruction.decode_eq_ok_iff.mpr
    ⟨p, hps.wellFormed p (List.mem_of_getElem? hp), hps.reaches k p hp, ⟨_, hdrop⟩, rfl⟩

/-- The instructions of a body that was decoded ascend. -/
theorem Body.pairwise_of_decode {bytes : List UInt8} {is : List Instruction}
    (h : Body.decode bytes = .ok is) : is.Pairwise (·.offset < ·.offset) := by
  obtain ⟨ps, -, rfl⟩ := Body.decode_eq_ok_iff.mp h
  exact Piece.pairwise_listing 0 ps

/-- The instructions of a body that was decoded were read. -/
theorem Body.decoded_of_mem {bytes : List UInt8} {is : List Instruction}
    (h : Body.decode bytes = .ok is) {i : Instruction} (hi : i ∈ is) : i.Decoded :=
  ⟨_, _, Body.standsIn_of_mem h hi⟩

end Provenance
