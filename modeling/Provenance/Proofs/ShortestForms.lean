import Provenance.Proofs.RoundTrip

/-!
# Shortest forms

Constants and local variables have several encodings. The number of bytes that an operand takes
bounds the size of an instruction from below (`Instruction.Decoded.leastSize_le`), and so does what
an instruction loads or accesses. What the assembler emits is as short as these bounds allow
(`Assembler.emits_shortest`).
-/

namespace Provenance

/-! ## How short an instruction can be -/

/-- An opcode with an index of two bytes has two bytes itself. -/
theorem OpCode.size_of_var16 : ∀ o ∈ all, o.operand = .var16 → o.size = 2 := by
  decide +kernel

/-- The least number of bytes of an instruction with an operand. -/
def Operand.leastSize : Operand → Nat
  | .int8 _ => 2
  | .int32 _ => 5
  | .var index => if index < 0x100 then 2 else 4
  | _ => 1

namespace Instruction

/-- No instruction that was read is shorter than its operand allows. -/
theorem Decoded.leastSize_le {i : Instruction} (h : i.Decoded) : i.operand.leastSize ≤ i.size := by
  obtain ⟨offset, bytes, hread⟩ := h
  obtain ⟨p, hp, -, -, rfl⟩ := decode_eq_ok_iff.mp hread
  have hopcode := p.opcode.size_pos
  have hsized := hp.sized
  rw [Piece.instruction_size, Piece.size_eq, Piece.instruction]
  unfold Piece.Sized at hsized
  unfold Piece.operand
  cases hshape : p.opcode.operand with
  | var8 =>
    rw [hshape] at hsized
    have hpayload : p.payload.length = 1 := hsized
    have hindex : (ScalarKind.u8.decode p.payload).toUInt16 < 0x100 := by
      rw [UInt16.lt_iff_toNat_lt, UInt8.toNat_toUInt16]
      exact UInt8.toNat_lt _
    simp only [Operand.leastSize, if_pos hindex]
    omega
  | var16 =>
    rw [hshape] at hsized
    have hpayload : p.payload.length = 2 := hsized
    have hsize := OpCode.size_of_var16 p.opcode hp.opcode hshape
    simp only [Operand.leastSize]
    split <;> omega
  | int8 | int32 =>
    rw [hshape] at hsized
    have hpayload : p.payload.length = _ := hsized
    simp only [Operand.leastSize]
    omega
  | _ =>
    simp only [Operand.leastSize]
    omega

/-- The instruction loads an integer constant: the mnemonic says which one, or the operand does. -/
inductive Loads (i : Instruction) : Int → Prop
  | minusOne (name : i.name = "ldc.i4.m1") : Loads i (-1)
  | digit {d : Nat} (le : d ≤ 8) (name : i.name = s!"ldc.i4.{d}") : Loads i d
  | short {value : Int8} (name : i.name = "ldc.i4.s") (operand : i.operand = .int8 value) :
      Loads i value.toInt
  | long {value : Int32} (name : i.name = "ldc.i4") (operand : i.operand = .int32 value) :
      Loads i value.toInt

/-- The instruction loads a local variable, or stores to it. -/
structure Accesses (i : Instruction) (store : Bool) (index : UInt16) : Prop where
  localIndex : i.localIndex? = some index
  isLocalStore : i.isLocalStore = store

/-- Number of bytes of the shortest instruction that loads a constant. -/
def constantSize (value : Int) : Nat :=
  if -1 ≤ value ∧ value ≤ 8 then 1
  else if -128 ≤ value ∧ value ≤ 127 then 2
  else 5

/-- Number of bytes of the shortest instruction that accesses a local variable. -/
def localSize (index : UInt16) : Nat :=
  if index ≤ 3 then 1
  else if index ≤ 255 then 2
  else 4

/-- No instruction that loads a constant is shorter than the constant allows. -/
theorem Loads.constantSize_le {i : Instruction} {value : Int} (h : i.Loads value)
    (hread : i.Decoded) : constantSize value ≤ i.size := by
  have hleast := hread.leastSize_le
  have hpos := hread.size_pos
  cases h with
  | minusOne => exact hpos
  | @digit d hle =>
    rw [constantSize, if_pos (by omega)]
    exact hpos
  | @short value _ hoperand =>
    have hlow := value.le_toInt
    have hhigh := value.toInt_lt
    rw [hoperand, Operand.leastSize] at hleast
    rw [constantSize, if_pos (by omega : -128 ≤ value.toInt ∧ value.toInt ≤ 127)]
    split <;> omega
  | long _ hoperand =>
    rw [hoperand, Operand.leastSize] at hleast
    unfold constantSize
    split_ifs <;> omega

/-- A variable is named by the operand. -/
theorem operand_of_varIndex? {i : Instruction} {index : UInt16} (h : i.varIndex? = some index) :
    i.operand = .var index := by
  unfold varIndex? at h
  split at h
  · next hoperand =>
    cases h
    exact hoperand
  · cases h

/-- Among four values in a row, no one is more than three after the first. -/
theorem sub_le_three {value first : UInt16} (hlow : first ≤ value) (hhigh : value ≤ first + 3) :
    value - first ≤ 3 := by
  rw [UInt16.le_iff_toNat_le, UInt16.toNat_sub_of_le _ _ hlow]
  rw [UInt16.le_iff_toNat_le] at hlow hhigh
  rw [UInt16.toNat_add] at hhigh
  simp at hhigh ⊢
  omega

/-- No instruction that accesses a local variable is shorter than the index allows. -/
theorem Accesses.localSize_le {i : Instruction} {store : Bool} {index : UInt16}
    (h : i.Accesses store index) (hread : i.Decoded) : localSize index ≤ i.size := by
  have hpos := hread.size_pos
  have himplied (hindex : index ≤ 3) : localSize index ≤ i.size := by
    rw [localSize, if_pos hindex]
    exact hpos
  have hlocal := h.localIndex
  -- The first two ranges of opcodes imply the index; with the others the operand names it.
  simp only [localIndex?] at hlocal
  split_ifs at hlocal with hload hstore
  · cases hlocal
    exact himplied (sub_le_three hload.1 hload.2)
  · cases hlocal
    exact himplied (sub_le_three hstore.1 hstore.2)
  · have hleast := hread.leastSize_le
    rw [operand_of_varIndex? hlocal, Operand.leastSize] at hleast
    unfold localSize
    simp only [UInt16.le_iff_toNat_le, UInt16.lt_iff_toNat_lt, UInt16.reduceToNat] at hleast ⊢
    split_ifs at hleast ⊢ <;> omega

/-- An opcode of the range of a family implies the index. -/
theorem accesses_of_implied {i : Instruction} {store : Bool} {n : Nat} (hn : n < 4)
    (hvalue : i.opcode.value = (if store then 0x0A else 0x06) + UInt16.ofNat n) :
    i.Accesses store (UInt16.ofNat n) := by
  have hcases : n = 0 ∨ n = 1 ∨ n = 2 ∨ n = 3 := by omega
  rcases hcases with rfl | rfl | rfl | rfl <;> cases store <;>
    exact ⟨by simp [localIndex?, hvalue], by simp [isLocalStore, OpCode.isLocalStore, hvalue]⟩

/-- With the other opcodes of a family, the operand names the index. -/
theorem accesses_of_operand {i : Instruction} {store : Bool} {index : UInt16}
    (hvalue : i.opcode.value = (if store then 0x13 else 0x11) ∨
      i.opcode.value = if store then 0xFE0E else 0xFE0C)
    (hoperand : i.operand = .var index) : i.Accesses store index := by
  rcases hvalue with hvalue | hvalue <;> cases store <;>
    exact ⟨by simp [localIndex?, varIndex?, hvalue, hoperand],
      by simp [isLocalStore, OpCode.isLocalStore, hvalue]⟩

end Instruction

namespace OpCode

/-- The table has an opcode with this mnemonic, value, size and shape of operand. -/
def Listed (name : String) (value : UInt16) (size : Nat) (shape : OperandShape) : Prop :=
  (ofName? name).map (fun o => (o.value, o.size, o.operand)) = some (value, size, shape)

instance (name : String) (value : UInt16) (size : Nat) (shape : OperandShape) :
    Decidable (Listed name value size shape) :=
  inferInstanceAs (Decidable (_ = _))

/-- The opcodes of the constants from zero to eight. -/
theorem listed_digit : ∀ d < 9, Listed s!"ldc.i4.{d}" (0x16 + UInt16.ofNat d) 1 .none := by
  decide +kernel

/-- The family of mnemonics that load local variables, or store to them. -/
def localFamily (store : Bool) : String :=
  if store then "stloc" else "ldloc"

/-- The opcodes that imply the index of a local variable. -/
theorem listed_implied : ∀ store, ∀ n < 4, Listed s!"{localFamily store}.{n}"
    ((if store then 0x0A else 0x06) + UInt16.ofNat n) 1 .none := by
  decide +kernel

/-- The opcodes with the index of a local variable in one byte. -/
theorem listed_short : ∀ store, Listed s!"{localFamily store}.s"
    (if store then 0x13 else 0x11) 1 .var8 := by
  decide +kernel

/-- The opcodes with the index of a local variable in two bytes. -/
theorem listed_long : ∀ store, Listed (localFamily store)
    (if store then 0xFE0E else 0xFE0C) 2 .var16 := by
  decide +kernel

end OpCode

namespace Assembler

/-! ## Emitting instructions that are read back -/

/-- The action appends an instruction and does nothing else, and the instruction is read back
whatever is appended later. -/
structure Emits (action : Action) (a : Assembler) (i : Instruction) : Prop where
  appends : action a = .ok () { a with code := a.code ++ i.bytes }
  decodes : ∀ rest, Instruction.decode a.position (i.bytes ++ rest) = .ok i

/-- A mnemonic of the table is emitted with an operand that fits it. -/
theorem exists_emits (a : Assembler) {mnemonic : String} {value : UInt16} {size : Nat}
    {shape : OperandShape} {payload : List UInt8} (operand : Option Operand)
    (hlisted : OpCode.Listed mnemonic value size shape)
    (hencode : Operand.encode mnemonic shape operand = .ok payload) :
    ∃ i : Instruction, Emits (emit mnemonic operand) a i ∧ i.name = mnemonic ∧
      i.opcode.value = value ∧ i.operand = operand.getD .none ∧
      i.size = size + payload.length := by
  obtain ⟨opcode, hlookup, heq⟩ := Option.map_eq_some_iff.mp hlisted
  cases heq
  let placed : Placed := ⟨a.position, .code opcode payload⟩
  have hfinished : placed.Finished a (.plain mnemonic operand) := finished_code hlookup hencode
  have hreaches := hfinished.reaches
  rw [← placed.position_add_size_piece a] at hreaches
  obtain ⟨hname, hoperand⟩ := hfinished.shown
  refine ⟨(placed.piece a).instruction a.position, ⟨?_, fun rest => ?_⟩, hname, rfl, hoperand,
    Piece.size_eq _⟩
  · have hcode : a.code ++ opcode.encoding ++ payload = a.code ++ (opcode.encoding ++ payload) := by
      apply Array.ext'
      simp only [Array.toList_appendList, List.append_assoc]
    rw [emit_eq_ok a hlookup hencode, append, hcode]
    rfl
  · exact Instruction.decode_eq_ok_iff.mpr
      ⟨placed.piece a, hfinished.wellFormed, hreaches, ⟨rest, rfl⟩, rfl⟩

/-- The form of a constant depends on the number that it stands for. -/
theorem constantForm_eq (value : Int32) :
    constantForm value =
      if value.toInt = -1 then ("ldc.i4.m1", none)
      else if 0 ≤ value.toInt ∧ value.toInt ≤ 8 then (s!"ldc.i4.{value.toInt}", none)
      else if -128 ≤ value.toInt ∧ value.toInt ≤ 127 then ("ldc.i4.s", some (.int8 value.toInt8))
      else ("ldc.i4", some (.int32 value)) := by
  simp only [constantForm, ← Int32.toInt_inj, Int32.le_iff_toInt_le]
  rfl

/-- A constant is emitted with as few bytes as it allows. -/
theorem exists_emits_emitConstant (a : Assembler) (value : Int32) :
    ∃ i, Emits (emitConstant value) a i ∧ i.Loads value.toInt ∧
      i.size = Instruction.constantSize value.toInt := by
  rw [emitConstant, constantForm_eq]
  split_ifs with hminus hdigit hshort
  · have hlisted : OpCode.Listed "ldc.i4.m1" 0x15 1 .none := by decide +kernel
    obtain ⟨i, hemits, hname, -, -, hsize⟩ := exists_emits a none hlisted rfl
    rw [hminus]
    exact ⟨i, hemits, .minusOne hname, hsize⟩
  · obtain ⟨d, hd⟩ := Int.eq_ofNat_of_zero_le hdigit.1
    rw [hd] at hdigit ⊢
    have hlisted := OpCode.listed_digit d (by omega)
    obtain ⟨i, hemits, hname, -, -, hsize⟩ := exists_emits a none hlisted rfl
    refine ⟨i, hemits, .digit (by omega) hname, ?_⟩
    rw [hsize, Instruction.constantSize, if_pos (by omega)]
    rfl
  · have hlisted : OpCode.Listed "ldc.i4.s" 0x1F 1 .int8 := by decide +kernel
    obtain ⟨i, hemits, hname, -, hoperand, hsize⟩ :=
      exists_emits a (some (.int8 value.toInt8)) hlisted rfl
    have hvalue : value.toInt8.toInt = value.toInt := by
      rw [Int32.toInt_toInt8]
      exact Int.bmod_eq_of_le hshort.1 (by omega)
    refine ⟨i, hemits, hvalue ▸ .short hname hoperand, ?_⟩
    rw [hsize, Instruction.constantSize, if_neg (by omega), if_pos hshort]
    rfl
  · have hlisted : OpCode.Listed "ldc.i4" 0x20 1 .int32 := by decide +kernel
    obtain ⟨i, hemits, hname, -, hoperand, hsize⟩ :=
      exists_emits a (some (.int32 value)) hlisted rfl
    refine ⟨i, hemits, .long hname hoperand, ?_⟩
    rw [hsize, Instruction.constantSize, if_neg (by omega), if_neg hshort]
    rfl

/-- An access to a local variable is emitted with as few bytes as the index allows. -/
theorem exists_emits_emitLocal (a : Assembler) (store : Bool) (index : UInt16) :
    ∃ i, Emits (emitLocal (OpCode.localFamily store) index) a i ∧ i.Accesses store index ∧
      i.size = Instruction.localSize index := by
  unfold emitLocal localForm Instruction.localSize
  split_ifs with himplied hshort
  · have hindex : index.toNat < 4 := Nat.lt_succ_of_le (UInt16.le_iff_toNat_le.mp himplied)
    have hlisted := OpCode.listed_implied store index.toNat hindex
    obtain ⟨i, hemits, -, hvalue, -, hsize⟩ := exists_emits a none hlisted rfl
    have haccesses := Instruction.accesses_of_implied hindex hvalue
    rw [UInt16.ofNat_toNat] at haccesses
    exact ⟨i, hemits, haccesses, hsize⟩
  · have hencode : Operand.encode s!"{OpCode.localFamily store}.s" .var8 (some (.var index)) =
        .ok (ScalarKind.u8.encode index.toUInt8) := by
      have hlt : index < 0x100 := Nat.lt_succ_of_le (UInt16.le_iff_toNat_le.mp hshort)
      rw [Operand.encode, if_pos hlt]
    obtain ⟨i, hemits, -, hvalue, hoperand, hsize⟩ :=
      exists_emits a (some (.var index)) (OpCode.listed_short store) hencode
    exact ⟨i, hemits, Instruction.accesses_of_operand (.inl hvalue) hoperand, hsize⟩
  · obtain ⟨i, hemits, -, hvalue, hoperand, hsize⟩ :=
      exists_emits a (some (.var index)) (OpCode.listed_long store) rfl
    exact ⟨i, hemits, Instruction.accesses_of_operand (.inr hvalue) hoperand, hsize⟩

/-- The action emits an instruction that means what is asked for, and no instruction that means the
same is shorter. -/
def EmitsShortest (action : Action) (a : Assembler) (Means : Instruction → Prop) : Prop :=
  ∃ i, Emits action a i ∧ Means i ∧ ∀ j : Instruction, j.Decoded → Means j → i.size ≤ j.size

/-- Constants and accesses to local variables can always be emitted, and the instruction that is
emitted is a shortest one. -/
theorem emits_shortest (a : Assembler) :
    (∀ value : Int32, EmitsShortest (emitConstant value) a (·.Loads value.toInt)) ∧
      (∀ index, EmitsShortest (emitLoad index) a (·.Accesses false index)) ∧
      ∀ index, EmitsShortest (emitStore index) a (·.Accesses true index) := by
  have hlocal (store : Bool) (index : UInt16) :
      EmitsShortest (emitLocal (OpCode.localFamily store) index) a (·.Accesses store index) := by
    obtain ⟨i, hemits, haccesses, hsize⟩ := exists_emits_emitLocal a store index
    exact ⟨i, hemits, haccesses, fun j hread h => hsize ▸ h.localSize_le hread⟩
  refine ⟨fun value => ?_, hlocal false, hlocal true⟩
  obtain ⟨i, hemits, hloads, hsize⟩ := exists_emits_emitConstant a value
  exact ⟨i, hemits, hloads, fun j hread h => hsize ▸ h.constantSize_le hread⟩

end Assembler

end Provenance
