import Provenance.Proofs.FinishedPieces

/-!
# Decoding undoes assembling

The instructions that an assembler holds are, with their displacements filled in, pieces of the
grammar, and as such they show what they were emitted with (`Assembler.Emission.Shows`). So a body
that was finished can be decoded, and what is decoded are the instructions that were emitted
(`Assembler.decode_finish`).
-/

namespace Provenance

/-- The bytes of an operand have the size that the opcode asks for, hold no displacement and are
read back as the operand. -/
theorem Operand.encode_spec {mnemonic : String} {opcode : OpCode} {operand : Option Operand}
    {payload : List UInt8} (h : Operand.encode mnemonic opcode.operand operand = .ok payload) :
    (Piece.mk opcode payload).Sized ∧ (Piece.mk opcode payload).displacements = [] ∧
      ∀ stop, (Piece.mk opcode payload).operand stop = operand.getD .none := by
  generalize hshape : opcode.operand = shape at h
  unfold Operand.encode at h
  split at h
  case h_1 | h_2 | h_3 | h_4 | h_5 | h_6 | h_7 | h_9 =>
    cases h
    simp [Piece.Sized, Piece.displacements, Piece.operand, hshape, OperandShape.size?,
      ScalarKind.width]
  case h_8 index =>
    split at h
    · next hshort =>
      cases h
      have hindex : index.toUInt8.toUInt16 = index := by
        rw [UInt16.lt_iff_toNat_lt] at hshort
        rw [← UInt16.toNat_inj]
        simp at hshort ⊢
        omega
      simp [Piece.Sized, Piece.displacements, Piece.operand, hshape, OperandShape.size?,
        ScalarKind.width, hindex]
    · cases h
  case h_10 => cases h

namespace Assembler

variable {a : Assembler}

/-! ## Displacements that are read back -/

/-- A label that is near is where its displacement leads. -/
theorem Near.add_reach {stop : Nat} {name : String} {s : Int} (h : a.Near stop name s) :
    ∃ target : Nat, a.offset? name = some target ∧ (stop : Int) + a.reach stop name = target := by
  obtain ⟨target, htarget, hreach, -⟩ := h.reach_eq
  exact ⟨target, htarget, by omega⟩

/-- A displacement of one byte is read back. -/
theorem Near.decode_short {stop : Nat} {name : String} (h : a.Near stop name 0x80) :
    (ScalarKind.i8.decode (field 1 (a.reach stop name))).toInt = a.reach stop name := by
  obtain ⟨-, -, -, hlow, hhigh⟩ := h.reach_eq
  have hdecode : ScalarKind.i8.decode (field 1 (a.reach stop name)) =
      Int8.ofInt (a.reach stop name) := ScalarKind.decode_encode ..
  rw [hdecode]
  exact Int8.toInt_ofInt_of_le hlow hhigh

/-- A displacement of four bytes is read back. -/
theorem Near.decode_long {stop : Nat} {name : String} (h : a.Near stop name 0x80000000) :
    (ScalarKind.i32.decode (field 4 (a.reach stop name))).toInt = a.reach stop name := by
  obtain ⟨-, -, -, hlow, hhigh⟩ := h.reach_eq
  have hdecode : ScalarKind.i32.decode (field 4 (a.reach stop name)) =
      Int32.ofInt (a.reach stop name) := ScalarKind.decode_encode ..
  rw [hdecode]
  exact Int32.toInt_ofInt_of_le hlow hhigh

/-- The displacements of a switch are read back. -/
theorem map_decode_caseFields {stop : Nat} {names : List String}
    (h : ∀ name ∈ names, a.Near stop name 0x80000000) :
    (List.range names.length).map (fun k =>
      (ScalarKind.i32.decode (((a.caseFields stop names).drop (4 * k)).take 4)).toInt) =
      names.map (a.reach stop) := by
  induction names with
  | nil => rfl
  | cons name names ih =>
    obtain ⟨hname, hnames⟩ := List.forall_mem_cons.mp h
    have hlength : (field 4 (a.reach stop name)).length = 4 := length_field (.inr rfl) _
    have hdrop (k : Nat) : (a.caseFields stop (name :: names)).drop (4 * (k + 1)) =
        (a.caseFields stop names).drop (4 * k) := by
      rw [Nat.mul_add, Nat.add_comm, ← List.drop_drop, caseFields, List.flatMap_cons,
        List.drop_left' hlength, caseFields]
    have htake : ((a.caseFields stop (name :: names)).drop (4 * 0)).take 4 =
        field 4 (a.reach stop name) := by
      rw [Nat.mul_zero, List.drop_zero, caseFields, List.flatMap_cons, List.take_left' hlength]
    rw [List.length_cons, List.range_succ_eq_map, List.map_cons, List.map_map, htake,
      hname.decode_long, List.map_cons, ← ih hnames]
    simp only [Function.comp_def, hdrop]

/-! ## Instructions that show what was emitted -/

/-- An instruction shows what it was emitted with: the mnemonic and the operand, where a label shows
as its offset. -/
def Emission.Shows (a : Assembler) (i : Instruction) : Emission → Prop
  | .plain mnemonic operand => i.name = mnemonic ∧ i.operand = operand.getD .none
  | .branch mnemonic name =>
    i.name = mnemonic ∧ ∃ target, a.offset? name = some target ∧ i.branchTarget? = some target
  | .table names => i.name = "switch" ∧ names.map a.offset? = i.switchTargets.map some

/-- What an instruction of a finished body is. -/
structure Placed.Finished (a : Assembler) (p : Placed) (emission : Emission) : Prop where
  wellFormed : (p.piece a).WellFormed
  reaches : (p.piece a).Reaches p.stop
  shown : emission.Shows a ((p.piece a).instruction p.position)
  targets : ∀ t ∈ (p.piece a).targets p.stop, ∃ name, a.offset? name = some t

/-- A piece stops where its instruction does. -/
theorem Placed.position_add_size_piece (a : Assembler) (p : Placed) :
    p.position + (p.piece a).size = p.stop := by
  rw [p.size_piece, Placed.stop]

/-- An instruction with an operand that is not a label. -/
theorem finished_code {position : Nat} {mnemonic : String} {operand : Option Operand}
    {opcode : OpCode} {payload : List UInt8} (hlookup : OpCode.ofName? mnemonic = some opcode)
    (hencode : Operand.encode mnemonic opcode.operand operand = .ok payload) :
    (Placed.mk position (.code opcode payload)).Finished a (.plain mnemonic operand) := by
  obtain ⟨hmem, hname⟩ := OpCode.ofName?_eq_some_iff.mp hlookup
  obtain ⟨hsized, hdisplacements, hoperand⟩ := Operand.encode_spec hencode
  have hpiece : (Placed.mk position (.code opcode payload)).piece a = ⟨opcode, payload⟩ := rfl
  refine ⟨⟨hmem, hsized⟩, ?_, ⟨hname, hoperand _⟩, ?_⟩
  · rw [Piece.Reaches, hpiece, hdisplacements]
    exact List.forall_mem_nil _
  · rw [Piece.targets, hpiece, hdisplacements]
    exact List.forall_mem_nil _

/-- A branch. -/
theorem finished_branch {position : Nat} {mnemonic name : String} {opcode : OpCode}
    (hlookup : OpCode.ofName? mnemonic = some opcode) (hbranch : isBranch opcode)
    (hresolved : (Placed.mk position (.branch opcode name)).Resolved a) :
    (Placed.mk position (.branch opcode name)).Finished a (.branch mnemonic name) := by
  obtain ⟨hmem, hname⟩ := OpCode.ofName?_eq_some_iff.mp hlookup
  generalize hp : Placed.mk position (.branch opcode name) = p at hresolved ⊢
  have hnear : a.Near p.stop name (span (fieldWidth opcode)) := by
    rw [← hp] at hresolved ⊢
    exact hresolved
  have hpiece : p.piece a = ⟨opcode, field (fieldWidth opcode) (a.reach p.stop name)⟩ := by
    rw [← hp]
    rfl
  obtain ⟨target, htarget, hadd⟩ := hnear.add_reach
  -- the two widths differ only in how the displacement is stored
  have hshape : (p.piece a).Sized ∧ (p.piece a).displacements = [a.reach p.stop name] ∧
      (p.piece a).operand p.stop = .target ((p.stop : Int) + a.reach p.stop name).toNat := by
    rw [hpiece]
    cases hoperand : opcode.operand with
    | branchTarget8 =>
      have hwidth : fieldWidth opcode = 1 := by rw [fieldWidth, if_pos hoperand]
      rw [hwidth] at hnear ⊢
      simp only [Piece.Sized, Piece.displacements, Piece.operand, hoperand, OperandShape.size?,
        hnear.decode_short, length_field, and_self, true_or]
    | branchTarget32 =>
      have hwidth : fieldWidth opcode = 4 := by rw [fieldWidth, hoperand, if_neg (by decide)]
      rw [hwidth] at hnear ⊢
      simp only [Piece.Sized, Piece.displacements, Piece.operand, hoperand, OperandShape.size?,
        hnear.decode_long, length_field, and_self, or_true]
    | _ => simp [isBranch, hoperand, OperandShape.isBranchTarget] at hbranch
  obtain ⟨hsized, hdisplacements, hoperand⟩ := hshape
  rw [hadd, Int.toNat_natCast] at hoperand
  refine ⟨⟨hpiece ▸ hmem, hsized⟩, ?_, ⟨?_, target, htarget, ?_⟩, ?_⟩
  · rw [Piece.Reaches, hdisplacements]
    simp [hadd]
  · rw [Instruction.name, Piece.instruction_opcode, hpiece, hname]
  · simp only [Instruction.branchTarget?, Piece.instruction, p.position_add_size_piece, hoperand]
  · intro t ht
    rw [Piece.targets, hdisplacements] at ht
    simp only [List.map_cons, List.map_nil, List.mem_singleton, hadd, Int.toNat_natCast] at ht
    exact ⟨name, ht ▸ htarget⟩

/-- The opcode of a switch has a table for its operand. -/
theorem operand_of_switch {opcode : OpCode} (h : OpCode.ofName? "switch" = some opcode) :
    opcode.operand = .switch := by
  have : ∀ o ∈ OpCode.ofName? "switch", o.operand = .switch := by decide +kernel
  exact this opcode h

/-- A switch. -/
theorem finished_table {position : Nat} {names : List String} {opcode : OpCode}
    (hlookup : OpCode.ofName? "switch" = some opcode) (hcount : names.length < 0x100000000)
    (hresolved : (Placed.mk position (.table opcode names)).Resolved a) :
    (Placed.mk position (.table opcode names)).Finished a (.table names) := by
  obtain ⟨hmem, hname⟩ := OpCode.ofName?_eq_some_iff.mp hlookup
  generalize hp : Placed.mk position (.table opcode names) = p at hresolved ⊢
  have hnear : ∀ name ∈ names, a.Near p.stop name 0x80000000 := by
    rw [← hp] at hresolved ⊢
    exact hresolved
  have hpiece : p.piece a = ⟨opcode, ScalarKind.u32.encode (UInt32.ofNat names.length) ++
      a.caseFields p.stop names⟩ := by
    rw [← hp]
    rfl
  have hoperand := operand_of_switch hlookup
  have hlength : (ScalarKind.u32.encode (UInt32.ofNat names.length)).length = 4 :=
    ScalarKind.length_encode ..
  have hsized : (p.piece a).Sized := by
    simp only [Piece.Sized, hpiece, hoperand, OperandShape.size?]
    refine ⟨_, _, rfl, ?_⟩
    rw [length_caseFields, UInt32.toNat_ofNat_of_lt' hcount]
  have hdisplacements : (p.piece a).displacements = names.map (a.reach p.stop) := by
    rw [← map_decode_caseFields hnear]
    have hcases : (4 + 4 * names.length - 4) / 4 = names.length := by omega
    have hdrop (k : Nat) : (ScalarKind.u32.encode (UInt32.ofNat names.length) ++
        a.caseFields p.stop names).drop (4 + k) = (a.caseFields p.stop names).drop k := by
      rw [← List.drop_drop, List.drop_left' hlength]
    simp only [Piece.displacements, hpiece, hoperand, List.length_append, hlength,
      length_caseFields, hcases]
    refine List.map_congr_left fun k _ => ?_
    rw [Piece.caseDisplacement, hdrop]
  have htargets : names.map a.offset? = ((p.piece a).targets p.stop).map some := by
    rw [Piece.targets, hdisplacements, List.map_map, List.map_map]
    refine List.map_congr_left fun name hname => ?_
    obtain ⟨target, htarget, hadd⟩ := (hnear name hname).add_reach
    simp only [Function.comp_apply, hadd, htarget, Int.toNat_natCast]
  refine ⟨⟨hpiece ▸ hmem, hsized⟩, ?_, ⟨?_, ?_⟩, ?_⟩
  · intro d hd
    rw [hdisplacements] at hd
    obtain ⟨name, hmem, rfl⟩ := List.mem_map.mp hd
    obtain ⟨target, -, hadd⟩ := (hnear name hmem).add_reach
    omega
  · rw [Instruction.name, Piece.instruction_opcode, hpiece, hname]
  · rw [htargets]
    simp only [Instruction.switchTargets, Piece.instruction, p.position_add_size_piece,
      Piece.operand]
    simp only [hpiece, hoperand]
  · intro t ht
    have : some t ∈ names.map a.offset? := htargets ▸ List.mem_map_of_mem ht
    obtain ⟨name, -, hoffset⟩ := List.mem_map.mp this
    exact ⟨name, hoffset⟩

/-- An instruction that was written for an emission and whose labels are within reach. -/
theorem Item.Writes.finished {p : Placed} {emission : Emission} (h : p.item.Writes emission)
    (hresolved : p.Resolved a) : p.Finished a emission := by
  obtain ⟨position, item⟩ := p
  cases h with
  | code hlookup hencode => exact finished_code hlookup hencode
  | branch hlookup hbranch => exact finished_branch hlookup hbranch hresolved
  | table hlookup hcount => exact finished_table hlookup hcount hresolved

/-! ## The finished body -/

/-- Instructions that are all finished are the pieces of a body. -/
theorem splits_layout {items : List Item} {position : Nat}
    (h : ∀ p ∈ layout position items, ∃ emission, p.Finished a emission) :
    Piece.Splits position ((layout position items).flatMap fun p => (p.piece a).bytes)
      ((layout position items).map (·.piece a)) := by
  induction items generalizing position with
  | nil => exact Piece.splits_nil_iff.mpr rfl
  | cons item items ih =>
    rw [layout, List.forall_mem_cons] at h
    obtain ⟨⟨emission, hfinished⟩, hrest⟩ := h
    rw [layout, List.flatMap_cons, List.map_cons, Piece.splits_cons_iff, Placed.size_piece]
    exact ⟨hfinished.wellFormed, hfinished.reaches, _, rfl, ih hrest⟩

/-- Each instruction is listed where it stands. -/
theorem listing_layout (a : Assembler) (items : List Item) (position : Nat) :
    Piece.listing position ((layout position items).map (·.piece a)) =
      (layout position items).map fun p => (p.piece a).instruction p.position := by
  induction items generalizing position with
  | nil => rfl
  | cons item items ih =>
    rw [layout, List.map_cons, Piece.listing_cons, Placed.size_piece, ih, List.map_cons]

/-- A finished body is as long as what was written. -/
theorem length_flatMap_layout (a : Assembler) (items : List Item) (position : Nat) :
    ((layout position items).flatMap fun p => (p.piece a).bytes).length =
      (skeletons items).length := by
  induction items generalizing position with
  | nil => rfl
  | cons item items ih =>
    have hsize := Placed.size_piece a ⟨position, item⟩
    rw [layout, List.flatMap_cons, List.length_append, ih, skeletons_cons, List.length_append,
      ← Item.size, ← hsize, Piece.size]

/-- A label stands where an instruction does, or at the end. -/
theorem Holds.mem_layout_of_offset? {items : List Item} (h : Holds a items) {name : String}
    {offset : Nat} (hname : a.offset? name = some offset) :
    offset = (skeletons items).length ∨ ∃ p ∈ layout 0 items, p.position = offset := by
  obtain ⟨before, after, rfl, rfl⟩ := h.labels name offset hname
  cases after with
  | nil =>
    left
    rw [List.append_nil]
  | cons item after =>
    right
    refine ⟨⟨(skeletons before).length, item⟩, ?_, rfl⟩
    rw [layout_append, Nat.zero_add, layout]
    exact List.mem_append_right _ (List.mem_cons_self ..)

/-- Decoding undoes assembling: if a body can be finished after any operations, whether these failed
or not, it can be decoded, and the instructions are those that were emitted, in order. Each stands
where it was emitted and shows what it was emitted with, and every branch goes to an instruction or
to the end of the body. The body is as long as what was written. -/
theorem decode_finish (ops : List Operation) {bytes : List UInt8}
    (h : (run ops empty).1.finish = .ok bytes) :
    ∃ is, Body.decode bytes = .ok is ∧
      List.Forall₂ (fun e i => i.offset = e.position ∧ e.emission.Shows (run ops empty).1 i)
        (run ops empty).2 is ∧
      (∀ i ∈ is, ∀ t ∈ i.targets, t = bytes.length ∨ ∃ j ∈ is, j.offset = t) ∧
      bytes.length = (run ops empty).1.position := by
  obtain ⟨items, hholds, hlog⟩ := holds_run ops holds_empty
  rw [List.nil_append] at hholds
  have hstart : empty.position = 0 := rfl
  rw [hstart] at hlog
  generalize (run ops empty).1 = a, (run ops empty).2 = log at *
  obtain ⟨hresolved, hbytes⟩ := (finish_eq_ok_iff hholds).mp h
  have hfinished : ∀ p ∈ layout 0 items, ∃ emission, p.Finished a emission := by
    intro p hp
    obtain ⟨e, -, -, hwrites⟩ := exists_of_mem_right hlog hp
    exact ⟨_, hwrites.finished (hresolved p hp)⟩
  have hlength : bytes.length = (skeletons items).length := by
    rw [hbytes, length_flatMap_layout]
  refine ⟨_, Body.decode_eq_ok_iff.mpr ⟨_, hbytes ▸ splits_layout hfinished, rfl⟩, ?_, ?_, ?_⟩
  · rw [listing_layout, List.forall₂_map_right_iff]
    have hboth := (List.forall₂_and_left _ _).mpr ⟨hresolved, hlog.flip⟩
    refine hboth.flip.imp fun e p ⟨hresolved, hposition, hwrites⟩ => ?_
    exact ⟨hposition.symm, (hwrites.finished hresolved).shown⟩
  · rw [listing_layout]
    intro i hi t ht
    obtain ⟨p, hp, rfl⟩ := List.mem_map.mp hi
    obtain ⟨emission, hemission⟩ := hfinished p hp
    rw [Piece.instruction_targets, Placed.position_add_size_piece] at ht
    obtain ⟨name, hname⟩ := hemission.targets t ht
    rcases hholds.mem_layout_of_offset? hname with hend | ⟨q, hq, rfl⟩
    · exact .inl (hend.trans hlength.symm)
    · exact .inr ⟨_, List.mem_map_of_mem hq, rfl⟩
  · rw [hlength, hholds.position_eq]

end Assembler

/-- A body with a constant, a short branch forward, and a switch backward and forward. -/
def Body.switchBody : List UInt8 :=
  [0x20, 0x2C, 1, 0, 0, 0x2D, 0x0D, 0x45, 2, 0, 0, 0, 0xEC, 0xFF, 0xFF, 0xFF, 0, 0, 0, 0, 0x2A]

namespace Assembler

/-- Operations with a label before and one after the branches to it. Two of them fail: there is no
such mnemonic, and the label is already there. -/
def loopOperations : List Operation :=
  [.define "top", .emitConstant 300, .emitBranch "brtrue.s" "end", .emit "bogus" none,
    .emitSwitch ["top", "end"], .define "end", .define "end", .emit "ret" none]

/-- The operations give a body, which is decoded to what they emitted. -/
theorem decode_finish_loop :
    (run loopOperations empty).1.finish = .ok Body.switchBody ∧
      ∃ is, Body.decode Body.switchBody = .ok is ∧
        List.Forall₂ (fun e i => i.offset = e.position ∧
            e.emission.Shows (run loopOperations empty).1 i) (run loopOperations empty).2 is ∧
        (∀ i ∈ is, ∀ t ∈ i.targets, t = 21 ∨ ∃ j ∈ is, j.offset = t) ∧
        21 = (run loopOperations empty).1.position := by
  have hfinish : (run loopOperations empty).1.finish = .ok Body.switchBody := rfl
  exact ⟨hfinish, decode_finish loopOperations hfinish⟩

end Assembler

end Provenance
