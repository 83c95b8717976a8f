import Provenance.Proofs.PathKey
import Provenance.Proofs.RoundTrip

/-!
# Assembling undoes decoding

A decoded body can be assembled again: with a label in front of every instruction and one at the
end, each instruction is emitted as it was decoded, a target by the label that stands there
(`Body.script`). Every operation succeeds, and finishing gives the body back byte for byte
(`Body.finish_script`). Three things are behind this. A piece of the grammar has an operand that is
encoded to its payload, or its payload is made of the displacements that it shows (`Piece.Made`). So
each operation writes the item of its piece (`Piece.perform_operation`). And once the labels stand
at their offsets, the item is finished to the piece (`Piece.piece_item`).
-/

namespace Provenance

/-! ## What a piece is made of -/

namespace OpCode

/-- An opcode with a branch target is that of a branch. -/
theorem isBranch_of_isBranchTarget :
    ∀ o ∈ all, o.operand.isBranchTarget → Assembler.isBranch o := by
  decide +kernel

/-- The only opcode with a table is that of the switch. -/
theorem name_of_switch : ∀ o ∈ all, o.operand = .switch → o.name = "switch" := by
  decide +kernel

end OpCode

/-- A table of four bytes for each case is put together from them. -/
theorem flatMap_take_drop {n : Nat} {table : List UInt8} (h : table.length = 4 * n) :
    ((List.range n).flatMap fun k => (table.drop (4 * k)).take 4) = table := by
  induction n generalizing table with
  | zero => exact (List.eq_nil_of_length_eq_zero h).symm
  | succ n ih =>
    have hrest : (table.drop 4).length = 4 * n := by
      rw [List.length_drop]
      omega
    have hdrop (k : Nat) : table.drop (4 * (k + 1)) = (table.drop 4).drop (4 * k) := by
      rw [List.drop_drop, Nat.mul_add, Nat.add_comm]
    rw [List.range_succ_eq_map, List.flatMap_cons, List.flatMap_map]
    simp only [hdrop, ih hrest, Nat.mul_zero, List.drop_zero, List.take_append_drop]

namespace Piece

open Assembler

/-- What the payload of a piece is made of. -/
inductive Made (p : Piece) : Prop
  /-- The payload encodes an operand. -/
  | plain {operand : Option Operand}
      (encode : Operand.encode p.opcode.name p.opcode.operand operand = .ok p.payload)
  /-- The payload is the displacement of a branch. -/
  | branch {d : Int} (isBranch : isBranch p.opcode) (displacements : p.displacements = [d])
      (payload : p.payload = field (fieldWidth p.opcode) d) (low : -span (fieldWidth p.opcode) ≤ d)
      (high : d < span (fieldWidth p.opcode))
      (operand : ∀ stop : Nat, p.operand stop = .target ((stop : Int) + d).toNat)
  /-- The payload is the number of the cases of a switch and their displacements. -/
  | table (switch : p.opcode.operand = .switch) (count : p.displacements.length < 0x100000000)
      (payload : p.payload = ScalarKind.u32.encode (UInt32.ofNat p.displacements.length) ++
        p.displacements.flatMap (field 4))
      (near : ∀ d ∈ p.displacements, -span 4 ≤ d ∧ d < span 4)

/-- A displacement of one byte is within its reach and is written as it was read. -/
theorem field_short {payload : List UInt8} (h : payload.length = 1) :
    payload = field 1 (ScalarKind.i8.decode payload).toInt ∧
      -span 1 ≤ (ScalarKind.i8.decode payload).toInt ∧
      (ScalarKind.i8.decode payload).toInt < span 1 := by
  refine ⟨?_, Int8.le_toInt _, Int8.toInt_lt _⟩
  have hwrite : field 1 (ScalarKind.i8.decode payload).toInt =
      ScalarKind.i8.encode (Int8.ofInt (ScalarKind.i8.decode payload).toInt) := rfl
  rw [hwrite, Int8.ofInt_toInt, ScalarKind.encode_decode h]

/-- A displacement of four bytes is within its reach and is written as it was read. -/
theorem field_long {payload : List UInt8} (h : payload.length = 4) :
    payload = field 4 (ScalarKind.i32.decode payload).toInt ∧
      -span 4 ≤ (ScalarKind.i32.decode payload).toInt ∧
      (ScalarKind.i32.decode payload).toInt < span 4 := by
  refine ⟨?_, Int32.le_toInt _, Int32.toInt_lt _⟩
  have hwrite : field 4 (ScalarKind.i32.decode payload).toInt =
      ScalarKind.i32.encode (Int32.ofInt (ScalarKind.i32.decode payload).toInt) := rfl
  rw [hwrite, Int32.ofInt_toInt, ScalarKind.encode_decode h]

/-- The payload of a switch is made of the displacements that it shows. -/
theorem made_of_switch {p : Piece} (hp : p.Sized) (hswitch : p.opcode.operand = .switch) :
    p.Made := by
  simp only [Sized, hswitch, OperandShape.size?] at hp
  obtain ⟨count, table, hpayload, htable⟩ := hp
  have hlength : (ScalarKind.u32.encode count).length = 4 := ScalarKind.length_encode ..
  have hdrop (k : Nat) : p.payload.drop (4 + k) = table.drop k := by
    rw [hpayload, ← List.drop_drop, List.drop_left' hlength]
  have hcases : (p.payload.length - 4) / 4 = count.toNat := by
    rw [hpayload, List.length_append, hlength, htable]
    omega
  have hdisplacements : p.displacements = (List.range count.toNat).map fun k =>
      (ScalarKind.i32.decode ((table.drop (4 * k)).take 4)).toInt := by
    simp only [displacements, hswitch, hcases]
    refine List.map_congr_left fun k _ => ?_
    rw [caseDisplacement, hdrop]
  have hfield : ∀ k ∈ List.range count.toNat, ((table.drop (4 * k)).take 4).length = 4 := by
    intro k hk
    rw [List.length_take, List.length_drop, htable]
    have := List.mem_range.mp hk
    omega
  have hcount : p.displacements.length = count.toNat := by
    rw [hdisplacements, List.length_map, List.length_range]
  refine .table hswitch ?_ ?_ ?_
  · rw [hcount]
    exact count.toNat_lt
  · rw [hcount, UInt32.ofNat_toNat, hpayload, hdisplacements, List.flatMap_map]
    refine congrArg _ ((flatMap_take_drop htable).symm.trans (List.flatMap_congr fun k hk => ?_))
    exact (field_long (hfield k hk)).1
  · intro d hd
    rw [hdisplacements] at hd
    obtain ⟨k, hk, rfl⟩ := List.mem_map.mp hd
    exact (field_long (hfield k hk)).2

/-- The payload of a branch is the displacement that it shows. -/
theorem made_of_isBranchTarget {p : Piece} (hp : p.WellFormed)
    (htarget : p.opcode.operand.isBranchTarget) : p.Made := by
  have hisBranch := OpCode.isBranch_of_isBranchTarget _ hp.opcode htarget
  have hsized := hp.sized
  unfold Sized at hsized
  cases hshape : p.opcode.operand with
  | branchTarget8 =>
    simp only [hshape, OperandShape.size?] at hsized
    have hwidth : fieldWidth p.opcode = 1 := by rw [fieldWidth, if_pos hshape]
    obtain ⟨hpayload, hlow, hhigh⟩ := field_short hsized
    rw [← hwidth] at hpayload hlow hhigh
    exact .branch hisBranch (by simp only [displacements, hshape]) hpayload hlow hhigh
      fun stop => by simp only [operand, hshape]
  | branchTarget32 =>
    simp only [hshape, OperandShape.size?] at hsized
    have hwidth : fieldWidth p.opcode = 4 := by rw [fieldWidth, hshape, if_neg (by decide)]
    obtain ⟨hpayload, hlow, hhigh⟩ := field_long hsized
    rw [← hwidth] at hpayload hlow hhigh
    exact .branch hisBranch (by simp only [displacements, hshape]) hpayload hlow hhigh
      fun stop => by simp only [operand, hshape]
  | _ => simp [hshape, OperandShape.isBranchTarget] at htarget

/-- Every piece of the grammar is made in one of these ways. -/
theorem WellFormed.made {p : Piece} (hp : p.WellFormed) : p.Made := by
  have hsized := hp.sized
  unfold Sized at hsized
  cases hshape : p.opcode.operand with
  | switch => exact made_of_switch hp.sized hshape
  | branchTarget8 | branchTarget32 => exact made_of_isBranchTarget hp (by rw [hshape]; rfl)
  | none =>
    simp only [hshape, OperandShape.size?] at hsized
    have hencode : Operand.encode p.opcode.name p.opcode.operand none = .ok p.payload := by
      rw [hshape, List.eq_nil_of_length_eq_zero hsized]
      rfl
    exact .plain hencode
  | int8 | int32 | int64 | float32 | float64 | var16 | token =>
    simp only [hshape, OperandShape.size?] at hsized
    have hencode : Operand.encode p.opcode.name p.opcode.operand (some (p.operand 0)) =
        .ok p.payload := by
      simp only [operand, hshape, Operand.encode]
      exact congrArg Except.ok (ScalarKind.encode_decode hsized)
    exact .plain hencode
  | var8 =>
    simp only [hshape, OperandShape.size?] at hsized
    have hencode : Operand.encode p.opcode.name p.opcode.operand (some (p.operand 0)) =
        .ok p.payload := by
      have hshort : (ScalarKind.u8.decode p.payload).toUInt16 < 0x100 := by
        rw [UInt16.lt_iff_toNat_lt, UInt8.toNat_toUInt16]
        exact UInt8.toNat_lt _
      simp only [operand, hshape, Operand.encode, if_pos hshort, UInt8.toUInt8_toUInt16]
      exact congrArg Except.ok (ScalarKind.encode_decode hsized)
    exact .plain hencode

end Piece

/-! ## One instruction -/

/-- The operation that emits a decoded instruction again: a branch or a switch with the labels of
its targets, and any other instruction with its operand, if it has one. -/
def Instruction.operation (name : Nat → String) (i : Instruction) : Assembler.Operation :=
  match i.operand with
  | .none => .emit i.name none
  | .target t => .emitBranch i.name (name t)
  | .switch ts => .emitSwitch (ts.map name)
  | operand => .emit i.name (some operand)

namespace Piece

open Assembler

variable {p : Piece} {name : Nat → String}

/-- The item that is written for a piece that ends at `stop`. -/
def item (name : Nat → String) (stop : Nat) (p : Piece) : Item :=
  match p.operand stop with
  | .target t => .branch p.opcode (name t)
  | .switch ts => .table p.opcode (ts.map name)
  | _ => .code p.opcode p.payload

/-- An instruction whose operand is encoded to its payload is emitted with that operand. -/
theorem operation_and_item_of_encode {operand : Option Operand}
    (h : Operand.encode p.opcode.name p.opcode.operand operand = .ok p.payload) (offset : Nat) :
    (p.instruction offset).operation name = .emit p.opcode.name operand ∧
      ∀ stop, p.item name stop = .code p.opcode p.payload := by
  obtain ⟨-, -, hoperand⟩ := Operand.encode_spec h
  have hshown : ∀ stop, p.operand stop = operand.getD .none := hoperand
  simp only [Instruction.operation, instruction, item, hshown]
  unfold Operand.encode at h
  split at h
  case h_10 => cases h
  all_goals exact ⟨rfl, fun _ => rfl⟩

/-- A switch shows its targets. -/
theorem operand_eq_switch (h : p.opcode.operand = .switch) (stop : Nat) :
    p.operand stop = .switch (p.targets stop) := by
  simp only [operand, h]

/-- Emitting an instruction again writes the item of its piece. -/
theorem perform_operation (hp : p.WellFormed) {offset : Nat}
    (hcases : p.operand (offset + p.size) ≠ .switch []) (a : Assembler) :
    ((p.instruction offset).operation name).perform a =
      .ok () (a.append (p.item name (offset + p.size))) := by
  have hlookup : OpCode.ofName? p.opcode.name = some p.opcode :=
    OpCode.ofName?_eq_some_iff.mpr ⟨hp.opcode, rfl⟩
  cases hp.made with
  | plain encode =>
    obtain ⟨hoperation, hitem⟩ := operation_and_item_of_encode encode offset
    rw [hoperation, hitem]
    exact emit_eq_ok a hlookup encode
  | branch isBranch _ _ _ _ operand =>
    simp only [Instruction.operation, instruction, item, operand]
    exact emitBranch_eq_ok a hlookup isBranch
  | table switch count _ _ =>
    rw [operand_eq_switch switch] at hcases
    rw [OpCode.name_of_switch _ hp.opcode switch] at hlookup
    simp only [Instruction.operation, instruction, item, operand_eq_switch switch]
    refine emitSwitch_eq_ok a hlookup (fun hempty => hcases ?_) ?_
    · rw [List.map_eq_nil_iff.mp hempty]
    · rwa [List.length_map, targets, List.length_map]

/-- The item of a piece is as long as the piece. -/
theorem size_item (hp : p.WellFormed) (stop : Nat) : (p.item name stop).size = p.size := by
  rw [size_eq]
  cases hp.made with
  | plain encode =>
    obtain ⟨-, hitem⟩ := operation_and_item_of_encode encode 0
    rw [hitem, Item.size, Item.skeleton, List.length_append, OpCode.length_encoding]
    rfl
  | branch _ _ payload _ _ operand =>
    simp only [item, operand]
    rw [payload, length_field (fieldWidth_cases _)]
    simp [Item.size, Item.skeleton, Item.opcode, Item.draft, zeros]
  | table switch count payload _ =>
    have hlength : (p.displacements.flatMap (field 4)).length = 4 * p.displacements.length := by
      simp [List.length_flatMap, length_field, Nat.mul_comm]
    simp only [item, operand_eq_switch switch]
    rw [payload, List.length_append, hlength]
    simp [Item.size, Item.skeleton, Item.opcode, Item.draft, zeros, targets]

/-- A label that stands at the target of a displacement is as far away as the displacement says. -/
theorem reach_of_offset? {a : Assembler} {stop : Nat} {d : Int} (hreach : 0 ≤ (stop : Int) + d)
    (hlabel : a.offset? (name ((stop : Int) + d).toNat) = some ((stop : Int) + d).toNat) :
    a.reach stop (name ((stop : Int) + d).toNat) = d := by
  rw [reach, hlabel, Option.getD_some]
  omega

/-- It is near if the displacement is. -/
theorem near_of_offset? {a : Assembler} {stop : Nat} {d s : Int} (hreach : 0 ≤ (stop : Int) + d)
    (hlabel : a.offset? (name ((stop : Int) + d).toNat) = some ((stop : Int) + d).toNat)
    (hlow : -s ≤ d) (hhigh : d < s) : a.Near stop (name ((stop : Int) + d).toNat) s :=
  ⟨_, hlabel, by omega, by omega⟩

/-- Once the labels of its targets stand at their offsets, the item of a piece is resolved and is
finished to the piece. -/
theorem piece_item (hp : p.WellFormed) {offset : Nat} (hreach : p.Reaches (offset + p.size))
    {a : Assembler}
    (hlabels : ∀ t ∈ p.targets (offset + p.size), a.offset? (name t) = some t) :
    (Placed.mk offset (p.item name (offset + p.size))).Resolved a ∧
      (Placed.mk offset (p.item name (offset + p.size))).piece a = p := by
  have hstop : (Placed.mk offset (p.item name (offset + p.size))).stop = offset + p.size := by
    rw [Placed.stop, size_item hp]
  have hlabel : ∀ d ∈ p.displacements,
      a.offset? (name (((offset + p.size : Nat) : Int) + d).toNat) =
        some (((offset + p.size : Nat) : Int) + d).toNat :=
    fun d hd => hlabels _ (List.mem_map_of_mem hd)
  unfold Placed.Resolved Placed.piece
  rw [hstop]
  generalize offset + p.size = stop at hreach hlabel ⊢
  cases hp.made with
  | plain encode =>
    obtain ⟨-, hitem⟩ := operation_and_item_of_encode encode 0
    rw [hitem]
    exact ⟨trivial, rfl⟩
  | @branch d _ displacements payload low high operand =>
    have hd : d ∈ p.displacements := by simp [displacements]
    simp only [item, operand, Item.opcode, Item.payload,
      reach_of_offset? (hreach d hd) (hlabel d hd), ← payload, and_true]
    exact near_of_offset? (hreach d hd) (hlabel d hd) low high
  | table switch _ payload near =>
    have hfields : a.caseFields stop ((p.targets stop).map name) =
        p.displacements.flatMap (field 4) := by
      rw [caseFields, targets, List.map_map, List.flatMap_map]
      refine List.flatMap_congr fun d hd => ?_
      rw [Function.comp_apply, reach_of_offset? (hreach d hd) (hlabel d hd)]
    have hlength : ((p.targets stop).map name).length = p.displacements.length := by
      rw [List.length_map, targets, List.length_map]
    simp only [item, operand_eq_switch switch, Item.opcode, Item.payload, hfields, hlength,
      ← payload, and_true]
    intro label hmem
    rw [targets, List.map_map] at hmem
    obtain ⟨d, hd, rfl⟩ := List.mem_map.mp hmem
    exact near_of_offset? (hreach d hd) (hlabel d hd) (near d hd).1 (near d hd).2

/-- The items of pieces that stand one after the other from `offset` on. -/
def items (name : Nat → String) : (offset : Nat) → List Piece → List Item
  | _, [] => []
  | offset, p :: ps => p.item name (offset + p.size) :: items name (offset + p.size) ps

/-- Once all labels stand at their offsets, the items of a body are resolved and finished to the
bytes of the body. -/
theorem layout_items {offset : Nat} {bytes : List UInt8} {ps : List Piece} {a : Assembler}
    (hps : Splits offset bytes ps)
    (hlabels : ∀ i ∈ listing offset ps, ∀ t ∈ i.targets, a.offset? (name t) = some t) :
    (∀ q ∈ layout offset (items name offset ps), q.Resolved a) ∧
      ((layout offset (items name offset ps)).flatMap fun q => (q.piece a).bytes) = bytes := by
  induction ps generalizing offset bytes with
  | nil => exact ⟨List.forall_mem_nil _, (splits_nil_iff.mp hps).symm⟩
  | cons p ps ih =>
    obtain ⟨hp, hreach, rest, rfl, hrest⟩ := splits_cons_iff.mp hps
    rw [listing_cons, List.forall_mem_cons] at hlabels
    obtain ⟨hfirst, hlabels⟩ := hlabels
    rw [instruction_targets] at hfirst
    obtain ⟨hresolved, hpiece⟩ := piece_item hp hreach hfirst
    obtain ⟨hresolvedRest, hbytes⟩ := ih hrest hlabels
    rw [items, layout, size_item hp, List.forall_mem_cons, List.flatMap_cons, hpiece, hbytes]
    exact ⟨⟨hresolved, hresolvedRest⟩, rfl⟩

end Piece

/-! ## The whole body -/

namespace Assembler

variable {name : Nat → String} {places : Set Nat} {a : Assembler} {items : List Item}
  {marks : List Nat}

/-- Operations succeed in a row if the first does and the others do after it. -/
theorem forM_cons_eq_ok {op : Operation} {ops : List Operation} {b c : Assembler}
    (h : op.perform a = .ok () b) (h' : ops.forM Operation.perform b = .ok () c) :
    (op :: ops).forM Operation.perform a = .ok () c := by
  show EStateM.bind _ _ a = _
  simp only [EStateM.bind, h]
  exact h'

/-- Operations succeed in a row if some do and the others do after them. -/
theorem forM_append_eq_ok {ops rest : List Operation} {b c : Assembler}
    (h : ops.forM Operation.perform a = .ok () b) (h' : rest.forM Operation.perform b = .ok () c) :
    (ops ++ rest).forM Operation.perform a = .ok () c := by
  have happend : (ops ++ rest).forM Operation.perform =
      (do ops.forM Operation.perform; rest.forM Operation.perform) := List.forM_append
  rw [happend]
  show EStateM.bind _ _ a = _
  simp only [EStateM.bind, h]
  exact h'

/-- If the labels are names of offsets, each at its own offset, then such a name has that offset. -/
theorem offset?_of_labels (h : a.labels = marks.map fun o => (name o, o)) {t : Nat}
    (hname : ∀ o ∈ marks, name o = name t → o = t) :
    a.offset? (name t) = if t ∈ marks then some t else none := by
  rw [offset?, h]
  clear h
  induction marks with
  | nil => rfl
  | cons o marks ih =>
    obtain ⟨hfirst, hrest⟩ := List.forall_mem_cons.mp hname
    by_cases heq : name o = name t
    · cases hfirst heq
      simp
    · have hne : t ≠ o := fun h => heq (congrArg name h.symm)
      simp only [List.map_cons, List.find?_cons, heq, decide_false, List.mem_cons, hne, false_or]
      exact ih hrest

/-- The assembler holds these items, and its labels are the names of these offsets, the latest
first, all of which lie before the current position. -/
structure Rewritten (name : Nat → String) (places : Set Nat) (a : Assembler) (items : List Item)
    (marks : List Nat) : Prop where
  holds : a.Holds items
  labels : a.labels = marks.map fun o => (name o, o)
  marks : ∀ o ∈ marks, o ∈ places ∧ o < a.position

namespace Rewritten

variable (hname : Set.InjOn name places) (h : Rewritten name places a items marks)
  (hplace : a.position ∈ places)

include hname h hplace

/-- The current position can be given its name. -/
theorem define_eq_ok : define (name a.position) a =
    .ok () { a with labels := (name a.position, a.position) :: a.labels } := by
  refine Assembler.define_eq_ok a ?_
  rw [offset?_of_labels h.labels fun o ho heq => hname (h.marks o ho).1 hplace heq, if_neg]
  intro hmem
  exact Nat.lt_irrefl _ (h.marks _ hmem).2

/-- After that, every place that has a label has it at its offset. -/
theorem offset?_define {t : Nat} (ht : t ∈ places) (hmem : t ∈ a.position :: marks) :
    ({ a with labels := (name a.position, a.position) :: a.labels } : Assembler).offset? (name t) =
      some t := by
  have hlabels : ({ a with labels := (name a.position, a.position) :: a.labels } :
      Assembler).labels = (a.position :: marks).map fun o => (name o, o) := by
    rw [List.map_cons, ← h.labels]
  rw [offset?_of_labels hlabels fun o ho heq => ?_, if_pos hmem]
  refine hname ?_ ht heq
  rcases List.mem_cons.mp ho with rfl | ho
  · exact hplace
  · exact (h.marks o ho).1

/-- An instruction is written again after a label in front of it. -/
theorem instruction {p : Piece} (hp : p.WellFormed)
    (hcases : (p.instruction a.position).operand ≠ .switch []) :
    ∃ b, [.define (name a.position), (p.instruction a.position).operation name].forM
        Operation.perform a = .ok () b ∧
      Rewritten name places b (items ++ [p.item name (a.position + p.size)])
        (a.position :: marks) ∧
      b.position = a.position + p.size := by
  have hholds := h.holds.define (name a.position)
  have hposition := hholds.position_append (p.item name (a.position + p.size))
  rw [Piece.size_item hp] at hposition
  refine ⟨_, forM_cons_eq_ok (h.define_eq_ok hname hplace)
    (forM_cons_eq_ok (Piece.perform_operation hp hcases _) rfl), ⟨hholds.append _, ?_, ?_⟩,
    hposition⟩
  · rw [labels_append, h.labels]
    rfl
  · rw [hposition]
    refine List.forall_mem_cons.mpr ⟨⟨hplace, Nat.lt_add_of_pos_right p.size_pos⟩, fun o ho => ?_⟩
    exact ⟨(h.marks o ho).1, Nat.lt_add_right _ (h.marks o ho).2⟩

omit hplace in
/-- The instructions of a body are written again one after the other, each after a label in front of
it. -/
theorem listing {bytes : List UInt8} {ps : List Piece} (hps : Piece.Splits a.position bytes ps)
    (hcases : ∀ i ∈ Piece.listing a.position ps, i.operand ≠ .switch [])
    (hplaces : ∀ i ∈ Piece.listing a.position ps, i.offset ∈ places) :
    ∃ b, ((Piece.listing a.position ps).flatMap fun i =>
        [.define (name i.offset), i.operation name]).forM Operation.perform a = .ok () b ∧
      Rewritten name places b (items ++ Piece.items name a.position ps)
        (((Piece.listing a.position ps).map (·.offset)).reverse ++ marks) ∧
      b.position = a.position + bytes.length := by
  induction ps generalizing a items marks bytes with
  | nil =>
    cases Piece.splits_nil_iff.mp hps
    exact ⟨a, rfl, by simpa [Piece.items, Piece.listing] using h, rfl⟩
  | cons p ps ih =>
    obtain ⟨hp, -, rest, rfl, hrest⟩ := Piece.splits_cons_iff.mp hps
    rw [Piece.listing_cons, List.forall_mem_cons] at hcases hplaces
    obtain ⟨b, hperform, hb, hposition⟩ := h.instruction hname hplaces.1 hp hcases.1
    rw [← hposition] at hrest hcases hplaces hb
    obtain ⟨c, hperform', hc, hposition'⟩ := ih hb hrest hcases.2 hplaces.2
    refine ⟨c, ?_, ?_, ?_⟩
    · rw [Piece.listing_cons, List.flatMap_cons, ← hposition]
      exact forM_append_eq_ok hperform hperform'
    · rw [Piece.listing_cons, Piece.items, ← hposition]
      simpa using hc
    · rw [hposition', hposition, List.length_append, Piece.size, Nat.add_assoc]

end Rewritten

end Assembler

namespace Body

/-- The offsets of a body at which a label can stand: those of its instructions, and its end. -/
def places (bytes : List UInt8) (is : List Instruction) : Set Nat :=
  { t | t = bytes.length ∨ ∃ i ∈ is, i.offset = t }

/-- The operations that write a decoded body again: in front of each instruction a label, then the
instruction, and a label at the end. -/
def script (name : Nat → String) (bytes : List UInt8) (is : List Instruction) :
    List Assembler.Operation :=
  is.flatMap (fun i => [.define (name i.offset), i.operation name]) ++ [.define (name bytes.length)]

/-- Assembling undoes decoding. Take any body that can be decoded, that has no switch without cases
and whose branches and switches go to its instructions or to its end, and any different names for
these places. Then every operation that writes the instructions again succeeds, and finishing gives
the body back byte for byte. -/
theorem finish_script {bytes : List UInt8} {is : List Instruction} {name : Nat → String}
    (hread : decode bytes = .ok is) (hcases : ∀ i ∈ is, i.operand ≠ .switch [])
    (htargets : ∀ i ∈ is, ∀ t ∈ i.targets, t ∈ places bytes is)
    (hname : Set.InjOn name (places bytes is)) :
    ∃ a, (script name bytes is).forM Assembler.Operation.perform Assembler.empty = .ok () a ∧
      a.finish = .ok bytes := by
  obtain ⟨ps, hps, rfl⟩ := decode_eq_ok_iff.mp hread
  have hstart :
      Assembler.Rewritten name (places bytes (Piece.listing 0 ps)) Assembler.empty [] [] :=
    ⟨Assembler.holds_empty, rfl, List.forall_mem_nil _⟩
  obtain ⟨a, hperform, ha, hposition⟩ :=
    hstart.listing hname hps hcases fun i hi => .inr ⟨i, hi, rfl⟩
  have hend : a.position = bytes.length := hposition.trans (Nat.zero_add _)
  have hplace : a.position ∈ places bytes (Piece.listing 0 ps) := .inl hend
  have hmarks : ∀ t ∈ places bytes (Piece.listing 0 ps),
      t ∈ a.position :: (((Piece.listing 0 ps).map (·.offset)).reverse ++ []) := by
    rintro t (rfl | ⟨i, hi, rfl⟩)
    · rw [hend]
      exact List.mem_cons_self ..
    · refine List.mem_cons_of_mem _ ?_
      rw [List.append_nil, List.mem_reverse]
      exact List.mem_map_of_mem hi
  refine ⟨{ a with labels := (name a.position, a.position) :: a.labels }, ?_, ?_⟩
  · rw [script, ← hend]
    exact Assembler.forM_append_eq_ok hperform
      (Assembler.forM_cons_eq_ok (ha.define_eq_ok hname hplace) rfl)
  · rw [Assembler.finish_eq_ok_iff (ha.holds.define (name a.position))]
    obtain ⟨hresolved, hbytes⟩ := Piece.layout_items hps fun i hi t ht =>
      ha.offset?_define hname hplace (htargets i hi t ht) (hmarks t (htargets i hi t ht))
    exact ⟨hresolved, hbytes.symm⟩

/-- A body with a constant, a short branch forward, and a switch backward and forward is assembled
again, with the labels that listings use. -/
theorem finish_script_switchBody :
    ∃ is, decode switchBody = .ok is ∧
      ∃ a, (script label switchBody is).forM Assembler.Operation.perform Assembler.empty =
        .ok () a ∧ a.finish = .ok switchBody := by
  have hok : ((decode switchBody).bind fun is => .ok (is.all fun i =>
      decide (i.operand ≠ .switch []) && i.targets.all fun t =>
        decide (t = switchBody.length) || is.any fun j => decide (j.offset = t))) = .ok true := by
    cbv
  obtain ⟨is, hread, hall⟩ := bind_eq_ok_iff.mp hok
  have hall := List.all_eq_true.mp (Except.ok.inj hall)
  simp only [Bool.and_eq_true, List.all_eq_true, Bool.or_eq_true, List.any_eq_true,
    decide_eq_true_eq] at hall
  exact ⟨is, hread, finish_script hread (fun i hi => (hall i hi).1) (fun i hi => (hall i hi).2)
    label_injective.injOn⟩

end Body

end Provenance
