import Provenance.Proofs.Grammar
import Provenance.Reader

/-!
# Where decoding stops and why

If a body cannot be decoded, then at the place where reading stops there is no opcode
(`OpCode.Unknown`), or the body breaks off within an instruction (`Piece.CutOff`), or there is a
whole instruction with a target before the start. What is found there and what is reported decide
each other (`Body.Diagnosis`). The instructions before that place are read, and a reader yields them
and then the error (`Reader.ask_of_fails`). More bytes at the end change neither an unknown opcode
nor a whole instruction (`Body.decode_failure`).
-/

namespace Provenance

open OpCode

/-- No opcode stands at the front: the first byte is neither an opcode nor the escape byte, or it is
the escape byte and the second byte does not complete an opcode. The number is what stands there
instead. -/
inductive OpCode.Unknown : List UInt8 → UInt16 → Prop
  | byte {first : UInt8} {rest : List UInt8} (hfirst : first ≠ escape)
      (h : ∀ o ∈ oneByte, o.encoding ≠ [first]) : Unknown (first :: rest) first.toUInt16
  | pair {second : UInt8} {rest : List UInt8} (h : ∀ o ∈ twoByte, o.encoding ≠ [escape, second]) :
      Unknown (escape :: second :: rest) (0xFE00 + second.toUInt16)

/-- The bytes are a piece of the grammar that breaks off after at least one byte. -/
def Piece.CutOff (bytes : List UInt8) : Prop :=
  bytes ≠ [] ∧ ∃ p : Piece, p.WellFormed ∧ bytes <+: p.bytes ∧ bytes ≠ p.bytes

/-- A malformation says that the body ends within the instruction at an offset. -/
inductive Malformation.Truncates (offset : Nat) : Malformation → Prop
  | opcode : Truncates offset (.truncatedOpCode offset)
  | caseCount : Truncates offset (.truncatedSwitch offset)
  | operand (mnemonic : String) : Truncates offset (.truncatedOperand mnemonic offset)

/-- More bytes cannot make up for the error. -/
def Error.Lasting (e : Error) : Prop :=
  (∃ offset code, e = .unknownOpCode offset code) ∨
    ∃ mnemonic offset, e = .malformed (.targetBeforeStart mnemonic offset)

/-- An opcode that is unknown stays so if more bytes follow. -/
theorem OpCode.Unknown.append {bytes : List UInt8} {code : UInt16} (h : Unknown bytes code)
    (suffix : List UInt8) : Unknown (bytes ++ suffix) code := by
  cases h with
  | byte hfirst h => exact .byte hfirst h
  | pair h => exact .pair h

/-! ## Bytes that break off -/

namespace Piece

variable {opcode : OpCode}

/-- A number of cases and a table with that many entries are the payload of a switch. -/
theorem sized_switch (hswitch : opcode.operand.size? = none) {count table : List UInt8}
    (hcount : count.length = 4) (htable : table.length = 4 * Bytes.ofLittleEndian count) :
    (Piece.mk opcode (count ++ table)).Sized := by
  have hlt := Bytes.ofLittleEndian_lt count
  rw [hcount] at hlt
  have hbits : (ScalarKind.u32.decode count).toNat = Bytes.ofLittleEndian count :=
    @ScalarKind.toBits_ofBits .u32 _ hlt
  simp only [Sized, hswitch]
  refine ⟨ScalarKind.u32.decode count, table, ?_, ?_⟩
  · rw [ScalarKind.encode_decode hcount]
  · rw [htable, hbits]

/-- A payload that is shorter than its opcode asks for can be completed. -/
theorem exists_sized_of_lt {size : Nat} (hsize : opcode.operand.size? = some size)
    {bytes : List UInt8} (h : bytes.length < size) :
    ∃ more, more ≠ [] ∧ (Piece.mk opcode (bytes ++ more)).Sized := by
  refine ⟨List.replicate (size - bytes.length) 0, ?_, ?_⟩
  · rw [ne_eq, List.replicate_eq_nil_iff]
    omega
  · simp only [Sized, hsize, List.length_append, List.length_replicate]
    omega

/-- A table that is shorter than its number of cases says can be completed. -/
theorem exists_sized_of_table_lt (hswitch : opcode.operand.size? = none)
    {count table : List UInt8} (hcount : count.length = 4)
    (h : table.length < 4 * Bytes.ofLittleEndian count) :
    ∃ more, more ≠ [] ∧ (Piece.mk opcode (count ++ table ++ more)).Sized := by
  refine ⟨List.replicate (4 * Bytes.ofLittleEndian count - table.length) 0, ?_, ?_⟩
  · rw [ne_eq, List.replicate_eq_nil_iff]
    omega
  · rw [List.append_assoc]
    refine sized_switch hswitch hcount ?_
    rw [List.length_append, List.length_replicate]
    omega

/-- A number of cases that breaks off can be completed, whatever number it is to be. -/
theorem exists_sized_of_count_lt (hswitch : opcode.operand.size? = none) {bytes : List UInt8}
    (h : bytes.length < 4) : ∃ more, more ≠ [] ∧ (Piece.mk opcode (bytes ++ more)).Sized := by
  have hcount : (bytes ++ List.replicate (4 - bytes.length) 0).length = 4 := by
    rw [List.length_append, List.length_replicate]
    omega
  refine ⟨List.replicate (4 - bytes.length) 0 ++ List.replicate
    (4 * Bytes.ofLittleEndian (bytes ++ List.replicate (4 - bytes.length) 0)) 0, ?_, ?_⟩
  · rw [ne_eq, List.append_eq_nil_iff, List.replicate_eq_nil_iff]
    omega
  · rw [← List.append_assoc]
    exact sized_switch hswitch hcount List.length_replicate

/-- An opcode whose payload can be completed is cut off. -/
theorem cutOff_of_sized (hmem : opcode ∈ all) {bytes more : List UInt8} (hmore : more ≠ [])
    (h : (Piece.mk opcode (bytes ++ more)).Sized) : CutOff (opcode.encoding ++ bytes) := by
  refine ⟨?_, _, ⟨hmem, h⟩, ?_, ?_⟩
  · intro hnil
    have hlength := opcode.length_encoding
    have hpos := opcode.size_pos
    rw [(List.append_eq_nil_iff.mp hnil).1, List.length_nil] at hlength
    omega
  · rw [Piece.bytes, ← List.append_assoc]
    exact List.prefix_append ..
  · intro heq
    rw [Piece.bytes, ← List.append_assoc, List.self_eq_append_right] at heq
    exact hmore heq

/-- The escape byte alone is cut off. -/
theorem cutOff_escape : CutOff [escape] := by
  obtain ⟨o, hmem, hoperand⟩ : ∃ o ∈ twoByte, o.operand = .none := by decide
  have hsized : (Piece.mk o []).Sized := by
    simp only [Sized, hoperand, OperandShape.size?, List.length_nil]
  refine ⟨List.cons_ne_nil _ _, ⟨o, []⟩, ⟨List.mem_append_right _ hmem, hsized⟩, ?_, ?_⟩
  · rw [Piece.bytes, encoding_of_mem_twoByte hmem]
    exact List.prefix_append ..
  · rw [Piece.bytes, encoding_of_mem_twoByte hmem]
    intro heq
    cases heq

/-- Where a piece is cut off, there is no whole one. -/
theorem CutOff.not_whole {bytes : List UInt8} (h : CutOff bytes) {p : Piece} (hp : p.WellFormed) :
    ¬ p.bytes <+: bytes := by
  rintro ⟨rest, rfl⟩
  obtain ⟨-, q, hq, ⟨more, hmore⟩, hne⟩ := h
  rw [List.append_assoc, ← List.append_nil q.bytes] at hmore
  obtain ⟨rfl, hrest⟩ := bytes_append_inj hp hq hmore
  rw [(List.append_eq_nil_iff.mp hrest).1, List.append_nil] at hne
  exact hne rfl

end Piece

/-! ## Reading one instruction -/

namespace Instruction

open Piece

/-- Reading the instruction at an offset fails with an error. -/
def Fails (offset : Nat) (bytes : List UInt8) (e : Error) : Prop :=
  ∃ consumed, decode offset bytes = .error ⟨e, consumed⟩

variable {offset : Nat} {bytes : List UInt8}

/-- A read fails in one way only. -/
theorem Fails.unique {e e' : Error} (h : Fails offset bytes e) (h' : Fails offset bytes e') :
    e = e' := by
  obtain ⟨_, h⟩ := h
  obtain ⟨_, h'⟩ := h'
  cases h.symm.trans h'
  rfl

/-- Opcodes are read, or they are unknown, or the body ends after the escape byte. -/
theorem decodeOpCode_cases (offset : Nat) (h : bytes ≠ []) :
    (∃ o rest, decodeOpCode offset bytes = .ok (o, rest)) ∨
      (∃ code consumed, Unknown bytes code ∧
        decodeOpCode offset bytes = .error ⟨.unknownOpCode offset code, consumed⟩) ∨
      bytes = [escape] ∧
        decodeOpCode offset bytes = .error ⟨.malformed (.truncatedOpCode offset), 1⟩ := by
  obtain ⟨first, rest, rfl⟩ := List.exists_cons_of_ne_nil h
  cases hbyte : ofByte? first with
  | some o =>
    left
    exact ⟨o, rest, by simp only [decodeOpCode, hbyte]⟩
  | none =>
    by_cases hescape : first = escape
    · subst hescape
      cases rest with
      | nil =>
        right; right
        exact ⟨rfl, by simp only [decodeOpCode, hbyte, ↓reduceIte]⟩
      | cons second rest =>
        cases hpair : ofEscaped? second with
        | some o =>
          left
          exact ⟨o, rest, by simp only [decodeOpCode, hbyte, hpair, ↓reduceIte]⟩
        | none =>
          right; left
          refine ⟨_, 2, .pair fun o ho henc => ?_,
            by simp only [decodeOpCode, hbyte, hpair, ↓reduceIte]⟩
          cases hpair.symm.trans (ofEscaped?_eq_some_iff.mpr ⟨ho, henc⟩)
    · right; left
      refine ⟨_, 1, .byte hescape fun o ho henc => ?_,
        by simp only [decodeOpCode, hbyte, if_neg hescape]⟩
      cases hbyte.symm.trans (ofByte?_eq_some_iff.mpr ⟨ho, henc⟩)

/-- A byte that is no opcode, or a pair that is none, is reported. -/
theorem decodeOpCode_of_unknown (offset : Nat) {code : UInt16} (h : Unknown bytes code) :
    ∃ consumed, decodeOpCode offset bytes = .error ⟨.unknownOpCode offset code, consumed⟩ := by
  cases h with
  | @byte first rest hfirst hnone =>
    have hbyte : ofByte? first = none := by
      refine Option.eq_none_iff_forall_ne_some.mpr fun o ho => ?_
      obtain ⟨hmem, henc⟩ := ofByte?_eq_some_iff.mp ho
      exact hnone o hmem henc
    exact ⟨1, by simp only [decodeOpCode, hbyte, if_neg hfirst]⟩
  | @pair second rest hnone =>
    have hpair : ofEscaped? second = none := by
      refine Option.eq_none_iff_forall_ne_some.mpr fun o ho => ?_
      obtain ⟨hmem, henc⟩ := ofEscaped?_eq_some_iff.mp ho
      exact hnone o hmem henc
    exact ⟨2, by simp only [decodeOpCode, ofByte?_escape, hpair, ↓reduceIte]⟩

/-- A payload is read, or it breaks off and can be completed. -/
theorem decodePayload_cases (offset : Nat) (opcode : OpCode) (bytes : List UInt8) :
    (∃ payload, decodePayload offset opcode bytes = .ok payload) ∨
      (∃ more, more ≠ [] ∧ (Piece.mk opcode (bytes ++ more)).Sized) ∧
        ∃ cause : Malformation, cause.Truncates offset ∧
          ∃ consumed, decodePayload offset opcode bytes = .error ⟨.malformed cause, consumed⟩ := by
  unfold decodePayload
  cases hsize : opcode.operand.size? with
  | some size =>
    simp only
    cases hsplit : Bytes.split? size bytes with
    | some split => exact .inl ⟨split.1, rfl⟩
    | none =>
      exact .inr ⟨exists_sized_of_lt hsize (Bytes.split?_eq_none_iff.mp hsplit), _, .operand _, _,
        rfl⟩
  | none =>
    simp only
    cases hcount : Bytes.split? 4 bytes with
    | none =>
      exact .inr ⟨exists_sized_of_count_lt hsize (Bytes.split?_eq_none_iff.mp hcount), _,
        .caseCount, _, rfl⟩
    | some split =>
      obtain ⟨count, table⟩ := split
      obtain ⟨rfl, hlength⟩ := Bytes.split?_eq_some_iff.mp hcount
      simp only [if_neg (not_wordLimit_le hlength)]
      cases hcases : Bytes.split? (4 * Bytes.ofLittleEndian count) table with
      | some split => exact .inl ⟨count ++ split.1, rfl⟩
      | none =>
        have htable := Bytes.split?_eq_none_iff.mp hcases
        exact .inr ⟨exists_sized_of_table_lt hsize hlength htable, _, .operand _, _, rfl⟩

/-- A whole instruction is read, whatever follows it, unless it has a target before the start. -/
theorem decode_bytes_append {p : Piece} (hp : p.WellFormed) (rest : List UInt8) :
    decode offset (p.bytes ++ rest) =
      match Operand.decode? p.opcode.operand (offset + p.size) p.payload with
      | some operand => .ok ⟨offset, p.opcode, operand, p.bytes⟩
      | none => .error ⟨.malformed (.targetBeforeStart p.opcode.name offset), p.size⟩ := by
  have hopcode : decodeOpCode offset (p.bytes ++ rest) = .ok (p.opcode, p.payload ++ rest) :=
    decodeOpCode_eq_ok_iff.mpr ⟨hp.opcode, List.append_assoc ..⟩
  have hpayload : decodePayload offset p.opcode (p.payload ++ rest) = .ok p.payload :=
    decodePayload_eq_ok_iff.mpr ⟨hp.sized, rest, rfl⟩
  simp only [decode, hopcode, hpayload, bind, Except.bind, p.size_eq]
  rfl

/-- A whole instruction with a target before the start is reported. -/
theorem fails_of_not_reaches {p : Piece} (hp : p.WellFormed) (hfront : p.bytes <+: bytes)
    (h : ¬ p.Reaches (offset + p.size)) :
    Fails offset bytes (.malformed (.targetBeforeStart p.opcode.name offset)) := by
  obtain ⟨rest, rfl⟩ := hfront
  have hoperand : Operand.decode? p.opcode.operand (offset + p.size) p.payload = none := by
    refine Option.eq_none_iff_forall_ne_some.mpr fun operand hsome => ?_
    exact h ((Operand.decode?_eq_some_iff hp.sized).mp hsome).1
  exact ⟨p.size, by rw [decode_bytes_append hp, hoperand]⟩

/-- An unknown opcode is reported. -/
theorem fails_of_unknown (offset : Nat) {code : UInt16} (h : Unknown bytes code) :
    Fails offset bytes (.unknownOpCode offset code) := by
  obtain ⟨consumed, hopcode⟩ := decodeOpCode_of_unknown offset h
  exact ⟨consumed, by rw [decode, hopcode]; rfl⟩

/-- What reading an instruction finds: a whole one, which it reads or which has a target before the
start, or no opcode, or an instruction that breaks off. -/
theorem decode_cases (offset : Nat) (h : bytes ≠ []) :
    (∃ p : Piece, p.WellFormed ∧ p.bytes <+: bytes ∧ ∃ i, decode offset bytes = .ok i) ∨
      (∃ p : Piece, p.WellFormed ∧ p.bytes <+: bytes ∧ ¬ p.Reaches (offset + p.size)) ∨
      (∃ code, Unknown bytes code) ∨
      CutOff bytes ∧ ∃ cause : Malformation, cause.Truncates offset ∧
        Fails offset bytes (.malformed cause) := by
  rcases decodeOpCode_cases offset h with ⟨o, rest, hopcode⟩ | ⟨code, -, hunknown, -⟩ |
    ⟨rfl, hopcode⟩
  · obtain ⟨hmem, rfl⟩ := decodeOpCode_eq_ok_iff.mp hopcode
    rcases decodePayload_cases offset o rest with ⟨payload, hpayload⟩ |
      ⟨⟨more, hmore, hsized⟩, cause, hcause, consumed, hpayload⟩
    · obtain ⟨hsized, rest, rfl⟩ := decodePayload_eq_ok_iff.mp hpayload
      have hp : (Piece.mk o payload).WellFormed := ⟨hmem, hsized⟩
      have hfront : (Piece.mk o payload).bytes <+: o.encoding ++ (payload ++ rest) :=
        ⟨rest, List.append_assoc ..⟩
      by_cases hreach : (Piece.mk o payload).Reaches (offset + (Piece.mk o payload).size)
      · have hread := decode_eq_ok_iff.mpr ⟨_, hp, hreach, ⟨rest, (List.append_assoc ..).symm⟩, rfl⟩
        exact .inl ⟨_, hp, hfront, _, hread⟩
      · exact .inr (.inl ⟨_, hp, hfront, hreach⟩)
    · refine .inr (.inr (.inr ⟨cutOff_of_sized hmem hmore hsized, cause, hcause, consumed, ?_⟩))
      rw [decode, hopcode]
      show (decodePayload offset o rest >>= _) = _
      rw [hpayload]
      rfl
  · exact .inr (.inr (.inl ⟨code, hunknown⟩))
  · exact .inr (.inr (.inr ⟨cutOff_escape, _, .opcode, 1, by rw [decode, hopcode]; rfl⟩))

/-- An instruction that breaks off is reported. -/
theorem fails_of_cutOff (offset : Nat) (h : CutOff bytes) :
    ∃ cause : Malformation, cause.Truncates offset ∧ Fails offset bytes (.malformed cause) := by
  rcases decode_cases offset h.1 with ⟨p, hp, hfront, -⟩ | ⟨p, hp, hfront, -⟩ |
    ⟨code, hunknown⟩ | ⟨-, hfails⟩
  · exact absurd hfront (h.not_whole hp)
  · exact absurd hfront (h.not_whole hp)
  · -- with the missing bytes the opcode would still be unknown, but then it is known
    obtain ⟨-, p, hp, ⟨more, hmore⟩, -⟩ := h
    obtain ⟨consumed, hread⟩ := decodeOpCode_of_unknown offset (hunknown.append more)
    cases hread.symm.trans (decodeOpCode_eq_ok_iff.mpr ⟨hp.opcode, hmore⟩)
  · exact hfails

/-- Every failure has one of three causes. -/
theorem Fails.cases {e : Error} (h : Fails offset bytes e) (hbytes : bytes ≠ []) :
    (∃ code, Unknown bytes code ∧ e = .unknownOpCode offset code) ∨
      (CutOff bytes ∧ ∃ cause : Malformation, cause.Truncates offset ∧ e = .malformed cause) ∨
      ∃ p : Piece, p.WellFormed ∧ p.bytes <+: bytes ∧ ¬ p.Reaches (offset + p.size) ∧
        e = .malformed (.targetBeforeStart p.opcode.name offset) := by
  rcases decode_cases offset hbytes with ⟨-, -, -, i, hread⟩ | ⟨p, hp, hfront, hreach⟩ |
    ⟨code, hunknown⟩ | ⟨hcut, cause, hcause, hfails⟩
  · obtain ⟨consumed, herror⟩ := h
    cases hread.symm.trans herror
  · exact .inr (.inr ⟨p, hp, hfront, hreach, h.unique (fails_of_not_reaches hp hfront hreach)⟩)
  · exact .inl ⟨code, hunknown, h.unique (fails_of_unknown offset hunknown)⟩
  · exact .inr (.inl ⟨hcut, cause, hcause, h.unique hfails⟩)

/-- An opcode is reported as unknown only if it is. -/
theorem Fails.unknown {code : UInt16} (h : Fails offset bytes (.unknownOpCode offset code))
    (hbytes : bytes ≠ []) : Unknown bytes code := by
  rcases h.cases hbytes with ⟨code', hunknown, heq⟩ | ⟨-, cause, -, heq⟩ | ⟨p, -, -, -, heq⟩
  · cases heq
    exact hunknown
  · cases heq
  · cases heq

/-- A cause that is reported is that the instruction breaks off, or that it has a target before the
start. -/
theorem Fails.malformed {cause : Malformation} (h : Fails offset bytes (.malformed cause))
    (hbytes : bytes ≠ []) :
    (CutOff bytes ∧ cause.Truncates offset) ∨
      ∃ p : Piece, p.WellFormed ∧ p.bytes <+: bytes ∧ ¬ p.Reaches (offset + p.size) ∧
        cause = .targetBeforeStart p.opcode.name offset := by
  rcases h.cases hbytes with ⟨code, -, heq⟩ | ⟨hcut, cause', hcause, heq⟩ |
    ⟨p, hp, hfront, hreach, heq⟩
  · cases heq
  · cases heq
    exact .inl ⟨hcut, hcause⟩
  · cases heq
    exact .inr ⟨p, hp, hfront, hreach, rfl⟩

/-- A lasting error is reported also if more bytes follow. -/
theorem Fails.append {e : Error} (h : Fails offset bytes e) (hbytes : bytes ≠ [])
    (hlasting : e.Lasting) (suffix : List UInt8) : Fails offset (bytes ++ suffix) e := by
  rcases h.cases hbytes with ⟨code, hunknown, rfl⟩ | ⟨-, cause, hcause, rfl⟩ |
    ⟨p, hp, hfront, hreach, rfl⟩
  · exact fails_of_unknown offset (hunknown.append suffix)
  · rcases hlasting with ⟨_, _, heq⟩ | ⟨_, _, heq⟩
    · cases heq
    · cases heq
      cases hcause
  · exact fails_of_not_reaches hp (hfront.trans (List.prefix_append ..)) hreach

end Instruction

/-! ## Reading a body -/

namespace Body

open Piece Instruction

/-- Reading fails exactly if some pieces stand at the front and reading the instruction after them
fails. -/
theorem readFrom_eq_failure_iff {offset : Nat} {bytes : List UInt8} {done is : List Instruction}
    {e : Error} :
    readFrom offset bytes done = ⟨is, some e⟩ ↔ ∃ front rest ps, bytes = front ++ rest ∧
      rest ≠ [] ∧ Splits offset front ps ∧ is = done.reverse ++ listing offset ps ∧
        Fails (offset + front.length) rest e := by
  fun_induction readFrom offset bytes done with
  | case1 offset done =>
    constructor
    · intro h
      cases h
    · rintro ⟨front, rest, ps, hbytes, hrest, -⟩
      exact absurd (List.nil_eq_append_iff.mp hbytes).2 hrest
  | case2 offset done first tail stop hread =>
    constructor
    · intro h
      cases h
      refine ⟨[], first :: tail, [], rfl, List.cons_ne_nil _ _, splits_nil_iff.mpr rfl, ?_,
        stop.consumed, hread⟩
      simp [listing]
    · rintro ⟨front, rest, ps, hbytes, -, hps, rfl, hfails⟩
      cases ps with
      | nil =>
        cases splits_nil_iff.mp hps
        rw [List.nil_append] at hbytes
        have he := hfails.unique ⟨stop.consumed, hbytes ▸ hread⟩
        rw [he]
        simp [listing]
      | cons p ps =>
        obtain ⟨hp, hreach, middle, rfl, -⟩ := splits_cons_iff.mp hps
        rw [List.append_assoc] at hbytes
        have hok := Instruction.decode_eq_ok_iff.mpr ⟨p, hp, hreach, ⟨_, hbytes⟩, rfl⟩
        cases hread.symm.trans hok
  | case3 offset done first tail i hread ih =>
    obtain ⟨p, hp, hreach, ⟨after, hbytes⟩, rfl⟩ := Instruction.decode_eq_ok_iff.mp hread
    rw [ih, instruction_next, instruction_size, drop_of_cons_eq hbytes]
    constructor
    · rintro ⟨front, rest, ps, rfl, hrest, hps, rfl, hfails⟩
      refine ⟨p.bytes ++ front, rest, p :: ps, ?_, hrest,
        splits_cons_iff.mpr ⟨hp, hreach, front, rfl, hps⟩, ?_, ?_⟩
      · rw [hbytes, List.append_assoc]
      · simp [listing_cons]
      · rwa [List.length_append, ← Nat.add_assoc]
    · rintro ⟨front, rest, ps, hsplit, hrest, hps, rfl, hfails⟩
      cases ps with
      | nil =>
        -- the instruction at the front was read, so it does not fail
        cases splits_nil_iff.mp hps
        obtain ⟨consumed, herror⟩ := hfails
        rw [List.nil_append] at hsplit
        rw [← hsplit] at herror
        cases hread.symm.trans herror
      | cons q ps =>
        obtain ⟨hq, -, middle, rfl, hmiddle⟩ := splits_cons_iff.mp hps
        rw [hbytes, List.append_assoc] at hsplit
        obtain ⟨rfl, rfl⟩ := bytes_append_inj hp hq hsplit
        refine ⟨middle, rest, ps, rfl, hrest, hmiddle, ?_, ?_⟩
        · simp [listing_cons]
        · rwa [List.length_append, ← Nat.add_assoc] at hfails

/-- Decoding fails exactly if some pieces stand at the front and reading the instruction after them
fails. -/
theorem decode_eq_error_iff {bytes : List UInt8} {e : Error} :
    decode bytes = .error e ↔ ∃ front rest ps, bytes = front ++ rest ∧ rest ≠ [] ∧
      Splits 0 front ps ∧ Fails front.length rest e := by
  have hread (is : List Instruction) := @readFrom_eq_failure_iff 0 bytes [] is e
  simp only [List.reverse_nil, List.nil_append, Nat.zero_add] at hread
  rw [decode, read]
  generalize readFrom 0 bytes [] = body at hread ⊢
  obtain ⟨instructions, _ | error⟩ := body
  · constructor
    · intro h
      cases h
    · rintro ⟨front, rest, ps, hbytes, hrest, hps, hfails⟩
      cases (hread _).mpr ⟨front, rest, ps, hbytes, hrest, hps, rfl, hfails⟩
  · constructor
    · intro h
      cases h
      obtain ⟨front, rest, ps, hbytes, hrest, hps, -, hfails⟩ := (hread instructions).mp rfl
      exact ⟨front, rest, ps, hbytes, hrest, hps, hfails⟩
    · rintro ⟨front, rest, ps, hbytes, hrest, hps, hfails⟩
      cases (hread _).mpr ⟨front, rest, ps, hbytes, hrest, hps, rfl, hfails⟩
      rfl

end Body

/-! ## Readers -/

namespace Reader

open Piece Instruction

/-- After a failure a reader yields nothing. -/
theorem ask_failed (cursor : Cursor) (n : Nat) :
    ask n ⟨cursor, true⟩ = List.replicate n none := by
  induction n with
  | zero => rfl
  | succ n ih =>
    have hnext : next ⟨cursor, true⟩ = (none, ⟨cursor, true⟩) := rfl
    rw [ask, hnext, ih, List.replicate_succ]

/-- A reader yields the instruction at its place. -/
theorem next_of_wellFormed {p : Piece} {offset : Nat} (hp : p.WellFormed)
    (hreach : p.Reaches (offset + p.size)) (rest : List UInt8) :
    next ⟨⟨offset, p.bytes ++ rest⟩, false⟩ =
      (some (.ok (p.instruction offset)), ⟨⟨offset + p.size, rest⟩, false⟩) := by
  have hread := decode_eq_ok_iff.mpr ⟨p, hp, hreach, ⟨rest, rfl⟩, rfl⟩
  have hskip : (Cursor.mk offset (p.bytes ++ rest)).skip (p.instruction offset).size =
      ⟨offset + p.size, rest⟩ :=
    congrArg (Cursor.mk (offset + p.size)) (List.drop_left' rfl)
  have hmore : (Cursor.mk offset (p.bytes ++ rest)).hasMore = true := by
    have hpos := p.size_pos
    cases hbytes : p.bytes with
    | nil => simp [Piece.size, hbytes] at hpos
    | cons => rfl
  simp only [next, hmore, Cursor.decode, hread, hskip]
  rfl

/-- A reader yields the pieces that stand at its place, one after the other. -/
theorem ask_of_splits {offset : Nat} {front : List UInt8} {ps : List Piece}
    (h : Splits offset front ps) (rest : List UInt8) (n : Nat) :
    ask (ps.length + n) ⟨⟨offset, front ++ rest⟩, false⟩ =
      (listing offset ps).map (some <| .ok ·) ++
        ask n ⟨⟨offset + front.length, rest⟩, false⟩ := by
  induction ps generalizing offset front with
  | nil =>
    rw [splits_nil_iff.mp h, List.length_nil, Nat.zero_add]
    rfl
  | cons p ps ih =>
    obtain ⟨hp, hreach, middle, rfl, hps⟩ := splits_cons_iff.mp h
    rw [List.length_cons, Nat.add_right_comm, ask, List.append_assoc,
      next_of_wellFormed hp hreach, ih hps, listing_cons, List.length_append, ← Nat.add_assoc]
    rfl

/-- A reader yields the error of a read that fails, and then nothing. -/
theorem ask_of_fails {offset : Nat} {bytes : List UInt8} {e : Error} (hbytes : bytes ≠ [])
    (h : Fails offset bytes e) (n : Nat) :
    ask (n + 1) ⟨⟨offset, bytes⟩, false⟩ = some (.error e) :: List.replicate n none := by
  obtain ⟨consumed, hread⟩ := h
  have hmore : (Cursor.mk offset bytes).hasMore = true := by
    cases bytes with
    | nil => exact absurd rfl hbytes
    | cons => rfl
  have hnext : next ⟨⟨offset, bytes⟩, false⟩ =
      (some (.error e), ⟨(Cursor.mk offset bytes).skip consumed, true⟩) := by
    simp only [next, hmore, Cursor.decode, hread]
    rfl
  rw [ask, hnext, ask_failed]

end Reader

/-! ## The diagnosis -/

namespace Body

open Piece Instruction

/-- What an error says about the place where reading stopped, and what is found there. -/
structure Diagnosis (bytes : List UInt8) (place : Nat) (e : Error) : Prop where
  unknown : ∀ code, e = .unknownOpCode place code ↔ Unknown (bytes.drop place) code
  truncated : (∃ cause : Malformation, cause.Truncates place ∧ e = .malformed cause) ↔
    CutOff (bytes.drop place)
  beforeStart : (∃ mnemonic, e = .malformed (.targetBeforeStart mnemonic place)) ↔
    ∃ p : Piece, p.WellFormed ∧ p.bytes <+: bytes.drop place ∧ ¬ p.Reaches (place + p.size)
  exhaustive : (∃ code, e = .unknownOpCode place code) ∨
    (∃ cause : Malformation, cause.Truncates place ∧ e = .malformed cause) ∨
    ∃ mnemonic, e = .malformed (.targetBeforeStart mnemonic place)
  ne_outOfBounds : e ≠ .outOfBounds
  ne_tableTooLarge : ∀ offset, e ≠ .malformed (.tableTooLarge offset)

/-- A read that fails is diagnosed. -/
theorem diagnosis_of_fails {bytes : List UInt8} {place : Nat} {e : Error}
    (hplace : bytes.drop place ≠ []) (h : Fails place (bytes.drop place) e) :
    Diagnosis bytes place e := by
  constructor
  · intro code
    constructor
    · rintro rfl
      exact h.unknown hplace
    · intro hunknown
      exact h.unique (fails_of_unknown place hunknown)
  · constructor
    · rintro ⟨cause, hcause, rfl⟩
      rcases h.malformed hplace with ⟨hcut, -⟩ | ⟨p, -, -, -, rfl⟩
      · exact hcut
      · cases hcause
    · intro hcut
      obtain ⟨cause, hcause, hfails⟩ := fails_of_cutOff place hcut
      exact ⟨cause, hcause, h.unique hfails⟩
  · constructor
    · rintro ⟨mnemonic, rfl⟩
      rcases h.malformed hplace with ⟨-, hcause⟩ | ⟨p, hp, hfront, hreach, -⟩
      · cases hcause
      · exact ⟨p, hp, hfront, hreach⟩
    · rintro ⟨p, hp, hfront, hreach⟩
      exact ⟨_, h.unique (fails_of_not_reaches hp hfront hreach)⟩
  · rcases h.cases hplace with ⟨code, -, heq⟩ | ⟨-, cause, hcause, heq⟩ | ⟨p, -, -, -, heq⟩
    · exact .inl ⟨code, heq⟩
    · exact .inr (.inl ⟨cause, hcause, heq⟩)
    · exact .inr (.inr ⟨_, heq⟩)
  · rintro rfl
    rcases h.cases hplace with ⟨code, -, heq⟩ | ⟨-, cause, -, heq⟩ | ⟨p, -, -, -, heq⟩ <;> cases heq
  · rintro offset rfl
    rcases h.malformed hplace with ⟨-, hcause⟩ | ⟨p, -, -, -, heq⟩
    · cases hcause
    · cases heq

/-- If a body cannot be decoded, the bytes before some place are decoded, and the error is decided
by what stands at that place. A reader yields the instructions before it, then the error, and then
nothing. If more bytes follow, an unknown opcode and a target before the start are still the
error. -/
theorem decode_failure {bytes : List UInt8} {e : Error} (h : decode bytes = .error e) :
    ∃ place is, place < bytes.length ∧
      (∃ ps, Splits 0 (bytes.take place) ps ∧ Lists (bytes.take place) ps is) ∧
      (∀ n, (Reader.ofBytes bytes).ask (is.length + (n + 1)) =
        is.map (some <| .ok ·) ++ some (.error e) :: List.replicate n none) ∧
      Diagnosis bytes place e ∧
      (e.Lasting → ∀ suffix, decode (bytes ++ suffix) = .error e) := by
  obtain ⟨front, rest, ps, rfl, hrest, hps, hfails⟩ := decode_eq_error_iff.mp h
  have hdrop : (front ++ rest).drop front.length = rest := List.drop_left
  refine ⟨front.length, listing 0 ps, ?_, ⟨ps, ?_⟩, fun n => ?_, ?_, fun hlasting suffix => ?_⟩
  · have hpos := List.length_pos_of_ne_nil hrest
    rw [List.length_append]
    omega
  · rw [List.take_left]
    exact ⟨hps, lists_listing hps⟩
  · rw [length_listing, Reader.ofBytes, Cursor.ofBytes, Reader.ask_of_splits hps, Nat.zero_add,
      Reader.ask_of_fails hrest hfails]
  · refine diagnosis_of_fails ?_ ?_
    · rw [hdrop]
      exact hrest
    · rw [hdrop]
      exact hfails
  · refine decode_eq_error_iff.mpr ⟨front, rest ++ suffix, ps, List.append_assoc .., ?_, hps, ?_⟩
    · exact List.append_ne_nil_of_left_ne_nil hrest suffix
    · exact hfails.append hrest hlasting suffix

/-- A branch back over the start of the body. -/
def branchBack : List UInt8 :=
  [0x00, 0x2B, 0xFC]

/-- It is an error whatever follows it. -/
theorem decode_failure_branch_back :
    decode branchBack = .error (.malformed (.targetBeforeStart "br.s" 1)) ∧
      ∀ suffix, decode (branchBack ++ suffix) =
        .error (.malformed (.targetBeforeStart "br.s" 1)) := by
  have hread : decode branchBack = .error (.malformed (.targetBeforeStart "br.s" 1)) := by cbv
  obtain ⟨place, is, -, -, -, -, hlasting⟩ := decode_failure hread
  exact ⟨hread, hlasting (.inr ⟨_, _, rfl⟩)⟩

end Body

end Provenance
