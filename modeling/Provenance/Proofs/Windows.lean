import Provenance.Proofs.Grammar

/-!
# An instruction as a window on its body

A `Window` is a place in a body together with an opcode and a size. It answers every question about
the operand by reading the body at that moment, with a default where a read would go beyond the end.
For an instruction that was read from the body all these reads stay inside the window
(`Window.read_payload`), so no default is ever taken and the window answers what the instruction
does (`Window.shows_of_standsIn`). So the answers depend on the offset and on the instruction's own
bytes, and on nothing else in the body (`Instruction.answers_local`).
-/

namespace Provenance

/-- A place in a body that an instruction of some size takes up. -/
structure Window where
  data : List UInt8
  offset : Nat
  opcode : OpCode
  size : Nat

namespace Window

variable (w : Window)

/-- The offset after the window. -/
def next : Nat :=
  w.offset + w.size

/-- The offset at which the operand starts. -/
def operandStart : Nat :=
  w.offset + w.opcode.size

/-- The bytes in the window. -/
def bytes : List UInt8 :=
  (w.data.drop w.offset).take w.size

/-- The scalar at a place of the body, unless the body ends before it does. -/
def read (kind : ScalarKind) (place : Nat) : Option kind.Value :=
  (kind.readAt? w.data place).map (·.1)

/-- The number of cases of a switch. -/
def caseCount? : Option Nat :=
  if w.opcode.isSwitch then (w.read .u32 w.operandStart).map (·.toNat) else none

/-- The target of a branch. -/
def branchTarget? : Option Nat :=
  match w.opcode.operand with
  | .branchTarget8 => (w.read .i8 w.operandStart).bind (Operand.relative? w.next ·.toInt)
  | .branchTarget32 => (w.read .i32 w.operandStart).bind (Operand.relative? w.next ·.toInt)
  | _ => none

/-- The targets of a switch. Entries that cannot be read, or that lead before the start of the body,
are left out. -/
def switchTargets : List Nat :=
  match w.caseCount? with
  | none => []
  | some count =>
    ((List.range count).filterMap fun k => w.read .i32 (w.operandStart + 4 + k * 4)).filterMap
      (Operand.relative? w.next ·.toInt)

/-- Every offset that the instruction can branch to. -/
def targets : List Nat :=
  if w.opcode.isSwitch then w.switchTargets else w.branchTarget?.toList

/-- The token of the operand. -/
def token? : Option Token :=
  match w.opcode.operand with
  | .token _ => (w.read .u32 w.operandStart).map Token.mk
  | _ => none

/-- The index of the variable that the operand names. -/
def varIndex? : Option UInt16 :=
  match w.opcode.operand with
  | .var8 => (w.read .u8 w.operandStart).map (·.toUInt16)
  | .var16 => w.read .u16 w.operandStart
  | _ => none

/-- The operand, which counts as absent if it cannot be read. -/
def operand : Operand :=
  let value? : Option Operand :=
    match w.opcode.operand with
    | .none => some .none
    | .int8 => (w.read .i8 w.operandStart).map .int8
    | .int32 => (w.read .i32 w.operandStart).map .int32
    | .int64 => (w.read .i64 w.operandStart).map .int64
    | .float32 => (w.read .f32 w.operandStart).map .float32
    | .float64 => (w.read .f64 w.operandStart).map .float64
    | .var8 | .var16 => w.varIndex?.map .var
    | .branchTarget8 | .branchTarget32 => w.branchTarget?.map .target
    | .token _ => w.token?.map .token
    | .switch => some (.switch w.switchTargets)
  value?.getD .none

/-- The window answers what the instruction does, and no read behind an answer goes beyond the
window: an operand of fixed size ends with the window, and so does the table of a switch, which has
an entry for each of its cases, all of which are targets. -/
structure Shows (i : Instruction) : Prop where
  inside : w.next ≤ w.data.length
  bytes : w.bytes = i.bytes
  operand : w.operand = i.operand
  branchTarget : w.branchTarget? = i.branchTarget?
  caseCount : w.caseCount? = i.caseCount?
  switchTargets : w.switchTargets = i.switchTargets
  targets : w.targets = i.targets
  token : w.token? = i.token?
  varIndex : w.varIndex? = i.varIndex?
  operand_eq_none_iff : i.operand = .none ↔ i.opcode.operand = .none
  fixed : ∀ size, i.opcode.operand.size? = some size → w.operandStart + size = w.next
  table : i.opcode.isSwitch → ∃ count : UInt32, w.read .u32 w.operandStart = some count ∧
    i.caseCount? = some count.toNat ∧ w.operandStart + 4 + count.toNat * 4 = w.next ∧
    i.switchTargets.length = count.toNat ∧
    ∀ k < count.toNat, ∃ d, w.read .i32 (w.operandStart + 4 + k * 4) = some d ∧
      i.switchTargets[k]? = Operand.relative? w.next d.toInt

end Window

/-- The displacements of a switch are those of its cases. -/
theorem Piece.displacements_of_length {p : Piece} (hswitch : p.opcode.operand = .switch)
    {count : Nat} (hlength : p.payload.length = 4 + count * 4) :
    p.displacements = (List.range count).map p.caseDisplacement := by
  have hcases : (p.payload.length - 4) / 4 = count := by omega
  simp only [displacements, hswitch, hcases]

/-- The window of an instruction of a body. -/
def Instruction.window (data : List UInt8) (i : Instruction) : Window :=
  ⟨data, i.offset, i.opcode, i.size⟩

namespace Window

/-! ## Reading inside a window -/

/-- At the place of the window there stands a piece of the grammar, which takes up the window. -/
structure Holds (w : Window) (p : Piece) : Prop where
  opcode : w.opcode = p.opcode
  size : w.size = p.size
  wellFormed : p.WellFormed
  reaches : p.Reaches w.next
  front : p.bytes <+: w.data.drop w.offset

/-- The window of an instruction of a body holds its piece. -/
theorem exists_holds_of_standsIn {data : List UInt8} {i : Instruction} (h : i.StandsIn data) :
    ∃ p, (i.window data).Holds p ∧ i = p.instruction i.offset := by
  obtain ⟨p, hp, hreach, ⟨rest, hdrop⟩, hi⟩ := Instruction.decode_eq_ok_iff.mp h
  have hopcode : i.opcode = p.opcode := by rw [hi, Piece.instruction_opcode]
  have hsize : i.size = p.size := by rw [hi, Piece.instruction_size]
  refine ⟨p, ⟨hopcode, hsize, hp, ?_, ⟨rest, hdrop.symm⟩⟩, hi⟩
  rwa [next, Instruction.window, hsize]

namespace Holds

variable {w : Window} {p : Piece} (h : w.Holds p)

include h

/-- A window does not go beyond its body. -/
theorem next_le : w.next ≤ w.data.length := by
  have hlength := h.front.length_le
  have hpos := p.size_pos
  rw [List.length_drop, ← Piece.size] at hlength
  rw [next, h.size]
  omega

/-- The bytes in the window are those of the piece. -/
theorem bytes_eq : w.bytes = p.bytes := by
  rw [Window.bytes, h.size]
  exact (List.prefix_iff_eq_take.mp h.front).symm

/-- The operand starts where the opcode of the piece ends, and takes up the rest of the window. -/
theorem operandStart_add : w.operandStart + p.payload.length = w.next := by
  rw [operandStart, next, h.opcode, h.size, p.size_eq, Nat.add_assoc]

/-- A read inside the operand finds what the piece holds there, whatever stands around it. -/
theorem read_payload (kind : ScalarKind) {k : Nat} (hk : k + kind.width ≤ p.payload.length) :
    w.read kind (w.operandStart + k) =
      some (kind.decode ((p.payload.drop k).take kind.width)) := by
  obtain ⟨rest, hfront⟩ := h.front
  have hdrop : w.data.drop (w.operandStart + k) = p.payload.drop k ++ rest := by
    rw [operandStart, Nat.add_assoc, ← List.drop_drop, ← hfront, ← List.drop_drop, h.opcode,
      Piece.bytes, List.append_assoc, List.drop_left' (p.opcode.length_encoding),
      List.drop_append_of_le_length (by omega)]
  have hwidth : ((p.payload.drop k).take kind.width).length = kind.width := by
    rw [List.length_take, List.length_drop]
    omega
  have hsplit : Bytes.split? kind.width (w.data.drop (w.operandStart + k)) =
      some ((p.payload.drop k).take kind.width, (p.payload.drop k).drop kind.width ++ rest) := by
    refine Bytes.split?_eq_some_iff.mpr ⟨?_, hwidth⟩
    rw [hdrop, ← List.append_assoc, List.take_append_drop]
  simp only [read, ScalarKind.readAt?, ScalarKind.read?, hsplit, Option.map_some]

/-- An operand of fixed size is read as a whole. -/
theorem read_operand (kind : ScalarKind) (hsize : p.opcode.operand.size? = some kind.width) :
    w.read kind w.operandStart = some (kind.decode p.payload) := by
  have hsized := h.wellFormed.sized
  simp only [Piece.Sized, hsize] at hsized
  have hread := h.read_payload kind (k := 0) (by omega)
  rwa [Nat.add_zero, List.drop_zero, ← hsized, List.take_length] at hread

/-! ## The answers of a window -/

/-- The variable that the operand names. -/
theorem varIndex?_eq : w.varIndex? = (p.instruction w.offset).varIndex? := by
  simp only [varIndex?, Instruction.varIndex?, Piece.instruction, Piece.operand, h.opcode]
  cases hshape : p.opcode.operand with
  | var8 => simp only [h.read_operand .u8 (congrArg _ hshape), Option.map_some]
  | var16 => simp only [h.read_operand .u16 (congrArg _ hshape)]
  | _ => rfl

/-- The token of the operand. -/
theorem token?_eq : w.token? = (p.instruction w.offset).token? := by
  simp only [token?, Instruction.token?, Piece.instruction, Piece.operand, h.opcode]
  cases hshape : p.opcode.operand with
  | token kind => simp only [h.read_operand .u32 (congrArg _ hshape), Option.map_some]
  | _ => rfl

/-- A displacement of the piece leads to an offset. -/
theorem relative?_eq {d : Int} (hd : d ∈ p.displacements) :
    Operand.relative? w.next d = some ((w.next : Int) + d).toNat :=
  Operand.relative?_eq_some_iff.mpr ⟨h.reaches d hd, rfl⟩

/-- The target of a branch. -/
theorem branchTarget?_eq : w.branchTarget? = (p.instruction w.offset).branchTarget? := by
  have hnext : w.offset + p.size = w.next := by rw [next, h.size]
  simp only [branchTarget?, Instruction.branchTarget?, Piece.instruction, Piece.operand, h.opcode,
    hnext]
  cases hshape : p.opcode.operand with
  | branchTarget8 =>
    simp only [h.read_operand .i8 (congrArg _ hshape), Option.bind_some]
    exact h.relative?_eq (by simp [Piece.displacements, hshape])
  | branchTarget32 =>
    simp only [h.read_operand .i32 (congrArg _ hshape), Option.bind_some]
    exact h.relative?_eq (by simp [Piece.displacements, hshape])
  | _ => rfl

/-- The payload of a switch starts with the number of its cases, and has an entry for each. -/
theorem exists_count (hswitch : p.opcode.operand = .switch) :
    ∃ count : UInt32, w.read .u32 w.operandStart = some count ∧
      p.payload.length = 4 + count.toNat * 4 := by
  have hsized := h.wellFormed.sized
  simp only [Piece.Sized, hswitch, OperandShape.size?] at hsized
  obtain ⟨count, table, hpayload, htable⟩ := hsized
  have hlength : (ScalarKind.u32.encode count).length = 4 := ScalarKind.length_encode ..
  have hpieces : p.payload.length = 4 + count.toNat * 4 := by
    rw [hpayload, List.length_append, hlength, htable, Nat.mul_comm]
  have hread := h.read_payload .u32 (k := 0) (by rw [hpieces]; exact Nat.le_add_right 4 _)
  refine ⟨count, ?_, hpieces⟩
  rw [Nat.add_zero, List.drop_zero, hpayload] at hread
  rwa [List.take_left' (ScalarKind.length_encode ..), ScalarKind.decode_encode] at hread

/-- Entry `k` of a switch table is read as displacement `k` of the piece. -/
theorem read_entry {count k : Nat} (hlength : p.payload.length = 4 + count * 4) (hk : k < count) :
    ∃ d, w.read .i32 (w.operandStart + 4 + k * 4) = some d ∧ d.toInt = p.caseDisplacement k := by
  have hread := h.read_payload .i32 (k := 4 + 4 * k) (by
    rw [hlength]
    show 4 + 4 * k + 4 ≤ _
    omega)
  refine ⟨_, ?_, rfl⟩
  rw [Nat.add_assoc, Nat.mul_comm k]
  exact hread

/-- All targets of a switch are read. -/
theorem switchTargets_of_switch (hswitch : p.opcode.operand = .switch) :
    w.switchTargets = p.targets w.next := by
  obtain ⟨count, hcount, hlength⟩ := h.exists_count hswitch
  have hdisplacements := Piece.displacements_of_length hswitch hlength
  have hcases : w.caseCount? = some count.toNat := by
    simp only [caseCount?, OpCode.isSwitch, h.opcode, hswitch, hcount, decide_true, ↓reduceIte,
      Option.map_some]
  simp only [switchTargets, hcases, List.filterMap_filterMap]
  rw [Piece.targets, hdisplacements, List.map_map, ← List.filterMap_eq_map]
  refine List.filterMap_congr fun k hk => ?_
  obtain ⟨d, hread, hd⟩ := h.read_entry hlength (List.mem_range.mp hk)
  have hmem : p.caseDisplacement k ∈ p.displacements :=
    hdisplacements ▸ List.mem_map_of_mem hk
  rw [hread, Option.bind_some, hd, h.relative?_eq hmem]
  rfl

/-- The targets of a switch, of which other instructions have none. -/
theorem switchTargets_eq : w.switchTargets = (p.instruction w.offset).switchTargets := by
  have hnext : w.offset + p.size = w.next := by rw [next, h.size]
  simp only [Instruction.switchTargets, Piece.instruction, Piece.operand, hnext]
  cases hshape : p.opcode.operand with
  | switch => exact h.switchTargets_of_switch hshape
  | _ => simp [switchTargets, caseCount?, OpCode.isSwitch, h.opcode, hshape]

/-- The number of cases of a switch is the number of its targets. -/
theorem caseCount?_eq : w.caseCount? = (p.instruction w.offset).caseCount? := by
  simp only [caseCount?, Instruction.caseCount?, Piece.instruction, Piece.operand, h.opcode,
    OpCode.isSwitch]
  cases hshape : p.opcode.operand with
  | switch =>
    obtain ⟨count, hcount, hlength⟩ := h.exists_count hshape
    simp [hcount, Piece.targets, Piece.displacements_of_length hshape hlength]
  | _ => rfl

/-- Every target. -/
theorem targets_eq : w.targets = (p.instruction w.offset).targets := by
  have hbranch := h.branchTarget?_eq
  have hswitch := h.switchTargets_eq
  simp only [targets, hbranch, hswitch, Instruction.targets, Instruction.branchTarget?,
    Instruction.switchTargets, Piece.instruction, Piece.operand, OpCode.isSwitch, h.opcode]
  cases p.opcode.operand <;> rfl

/-- The operand. -/
theorem operand_eq : w.operand = (p.instruction w.offset).operand := by
  have hvar := h.varIndex?_eq
  have hbranch := h.branchTarget?_eq
  have htoken := h.token?_eq
  have hswitch := h.switchTargets_eq
  simp only [operand, hvar, hbranch, htoken, hswitch, Instruction.varIndex?,
    Instruction.branchTarget?, Instruction.token?, Instruction.switchTargets, Piece.instruction,
    Piece.operand, h.opcode]
  cases hshape : p.opcode.operand with
  | int8 => simp only [h.read_operand .i8 (congrArg _ hshape), Option.map_some, Option.getD_some]
  | int32 => simp only [h.read_operand .i32 (congrArg _ hshape), Option.map_some, Option.getD_some]
  | int64 => simp only [h.read_operand .i64 (congrArg _ hshape), Option.map_some, Option.getD_some]
  | float32 =>
    simp only [h.read_operand .f32 (congrArg _ hshape), Option.map_some, Option.getD_some]
  | float64 =>
    simp only [h.read_operand .f64 (congrArg _ hshape), Option.map_some, Option.getD_some]
  | _ => rfl

/-- The window shows the instruction that the piece is. -/
theorem shows : w.Shows (p.instruction w.offset) where
  inside := h.next_le
  bytes := h.bytes_eq
  operand := h.operand_eq
  branchTarget := h.branchTarget?_eq
  caseCount := h.caseCount?_eq
  switchTargets := h.switchTargets_eq
  targets := h.targets_eq
  token := h.token?_eq
  varIndex := h.varIndex?_eq
  operand_eq_none_iff := by
    simp only [Piece.instruction, Piece.operand]
    cases p.opcode.operand <;> simp
  fixed size hsize := by
    have hsized := h.wellFormed.sized
    simp only [Piece.Sized] at hsized
    rw [Piece.instruction_opcode] at hsize
    rw [hsize] at hsized
    rw [← h.operandStart_add, hsized]
  table hswitch := by
    have hshape : p.opcode.operand = .switch := of_decide_eq_true hswitch
    obtain ⟨count, hcount, hlength⟩ := h.exists_count hshape
    have hdisplacements := Piece.displacements_of_length hshape hlength
    have hstop := h.operandStart_add
    have htargets : (p.instruction w.offset).switchTargets = p.targets w.next := by
      rw [← h.switchTargets_eq, h.switchTargets_of_switch hshape]
    have hsize : (p.targets w.next).length = count.toNat := by
      simp [Piece.targets, hdisplacements]
    refine ⟨count, hcount, ?_, by omega, by rw [htargets, hsize], fun k hk => ?_⟩
    · simp only [← h.caseCount?_eq, caseCount?, h.opcode, OpCode.isSwitch, hshape, decide_true,
        ↓reduceIte, hcount, Option.map_some]
    · obtain ⟨d, hread, hd⟩ := h.read_entry hlength hk
      refine ⟨d, hread, ?_⟩
      have hmem : p.caseDisplacement k ∈ p.displacements :=
        hdisplacements ▸ List.mem_map_of_mem (List.mem_range.mpr hk)
      rw [htargets, hd, h.relative?_eq hmem, Piece.targets, hdisplacements]
      simp [hk]

end Holds

/-- The window of an instruction of a body shows the instruction. -/
theorem shows_of_standsIn {data : List UInt8} {i : Instruction} (h : i.StandsIn data) :
    (i.window data).Shows i := by
  obtain ⟨p, hp, hi⟩ := exists_holds_of_standsIn h
  have hshows := hp.shows
  rwa [Instruction.window, ← hi] at hshows

end Window

/-! ## The answers of an instruction -/

namespace Instruction

/-- The instructions answer every question alike. -/
structure SameAnswers (i j : Instruction) : Prop where
  opcode : i.opcode = j.opcode
  size : i.size = j.size
  operand : i.operand = j.operand
  branchTarget : i.branchTarget? = j.branchTarget?
  caseCount : i.caseCount? = j.caseCount?
  switchTargets : i.switchTargets = j.switchTargets
  targets : i.targets = j.targets
  token : i.token? = j.token?
  varIndex : i.varIndex? = j.varIndex?
  localIndex : i.localIndex? = j.localIndex?
  isLocalStore : i.isLocalStore = j.isLocalStore
  operandText : ∀ resolver, i.operandText? resolver = j.operandText? resolver
  text : ∀ resolver, i.text resolver = j.text resolver
  render : ∀ resolver, i.render resolver = j.render resolver

section

variable {data data' : List UInt8} {i j : Instruction}

/-- An instruction is decided by its offset and its bytes, whatever body it was read from. -/
theorem StandsIn.eq_of_bytes_eq (hi : i.StandsIn data) (hj : j.StandsIn data')
    (hoffset : i.offset = j.offset) (hbytes : i.bytes = j.bytes) : i = j := by
  obtain ⟨p, hp, -, -, hpi⟩ := decode_eq_ok_iff.mp hi
  obtain ⟨q, hq, -, -, hqj⟩ := decode_eq_ok_iff.mp hj
  rw [hpi, hqj, Piece.instruction_bytes, Piece.instruction_bytes, ← List.append_nil p.bytes,
    ← List.append_nil q.bytes] at hbytes
  obtain ⟨rfl, -⟩ := Piece.bytes_append_inj hp hq hbytes
  rw [hpi, hqj, hoffset]

/-- Instructions that were read from bodies are the same if they have the same offset and the same
bytes. -/
theorem StandsIn.same_iff (hi : i.StandsIn data) (hj : j.StandsIn data') :
    i.same j ↔ i.offset = j.offset ∧ i.bytes = j.bytes := by
  simp only [same, Bool.and_eq_true, decide_eq_true_eq]
  constructor
  · rintro ⟨⟨⟨hoffset, -⟩, -⟩, hbytes⟩
    exact ⟨hoffset, hbytes⟩
  · rintro ⟨hoffset, hbytes⟩
    have heq := hi.eq_of_bytes_eq hj hoffset hbytes
    exact ⟨⟨⟨hoffset, congrArg size heq⟩, congrArg (·.opcode.value) heq⟩, hbytes⟩

/-- What an instruction answers is in its own bytes: two instructions, which may have been read from
different bodies, are the same exactly if they have the same offset and the same bytes, and then
they answer every question alike. The answers are those that are read from the body at the place of
the instruction, and no read goes beyond the instruction. -/
theorem answers_local (hi : i.StandsIn data) (hj : j.StandsIn data') :
    (i.same j ↔ i.offset = j.offset ∧ i.bytes = j.bytes) ∧ (i.same j → i.SameAnswers j) ∧
      (i.window data).Shows i := by
  refine ⟨hi.same_iff hj, fun hsame => ?_, Window.shows_of_standsIn hi⟩
  obtain ⟨hoffset, hbytes⟩ := (hi.same_iff hj).mp hsame
  cases hi.eq_of_bytes_eq hj hoffset hbytes
  exact ⟨rfl, rfl, rfl, rfl, rfl, rfl, rfl, rfl, rfl, rfl, rfl, fun _ => rfl, fun _ => rfl,
    fun _ => rfl⟩

end

/-- A switch with a case that leads to the start of the body. -/
def loopSwitch : Instruction :=
  ⟨1, OpCode.op 0x45 "switch" .switch .conditionalBranch .popI .push0, .switch [0],
    [0x45, 1, 0, 0, 0, 0xF6, 0xFF, 0xFF, 0xFF]⟩

/-- The switch is read from two bodies that have nothing but the switch in common. -/
theorem answers_local_loopSwitch :
    loopSwitch.StandsIn (0x16 :: loopSwitch.bytes ++ [0x2A]) ∧
      loopSwitch.StandsIn (0x17 :: loopSwitch.bytes) ∧
      loopSwitch.same loopSwitch ∧
      (loopSwitch.window (0x16 :: loopSwitch.bytes ++ [0x2A])).Shows loopSwitch := by
  have hfirst : loopSwitch.StandsIn (0x16 :: loopSwitch.bytes ++ [0x2A]) := rfl
  have hsecond : loopSwitch.StandsIn (0x17 :: loopSwitch.bytes) := rfl
  obtain ⟨hsame, -, hshows⟩ := answers_local hfirst hsecond
  exact ⟨hfirst, hsecond, hsame.mpr ⟨rfl, rfl⟩, hshows⟩

end Instruction

end Provenance
