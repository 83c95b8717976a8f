import Provenance.Proofs.Grammar
import Provenance.Proofs.Streams

/-!
# Calls on a cursor

Whatever a cursor is asked for, and in whatever order, it stays in its data and never moves back
(`Cursor.turns_sound`). A call that reads a scalar or advances moves the cursor over the bytes in
question or leaves it where it was. A call that reads an instruction moves it to the end of the
instruction; if it fails, the cursor still moves by a byte at least, unless it was at the end
(`Instruction.consumed_of_decode`). The invariant behind this is that a cursor stands in its data
(`Cursor.On`), which one call keeps, whether it fails or not (`Cursor.On.sound_turn`).
-/

namespace Provenance

/-! ## Reads that fail -/

namespace Instruction

variable {offset : Nat} {bytes : List UInt8} {stop : Stop}

/-- A failed read of an opcode has consumed a byte at least, and not more than there are. -/
theorem consumed_of_decodeOpCode (h : decodeOpCode offset bytes = .error stop)
    (hbytes : bytes ≠ []) : 0 < stop.consumed ∧ stop.consumed ≤ bytes.length := by
  obtain ⟨first, rest, rfl⟩ := List.exists_cons_of_ne_nil hbytes
  unfold decodeOpCode at h
  simp only at h
  split at h
  · cases h
  · split at h
    · split at h
      · cases h
        exact ⟨Nat.one_pos, by simp⟩
      · split at h
        · cases h
        · cases h
          exact ⟨Nat.two_pos, by simp⟩
    · cases h
      exact ⟨Nat.one_pos, by simp⟩

/-- A failed read of an operand has consumed the opcode, and not more than there is. -/
theorem consumed_of_decodePayload {opcode : OpCode}
    (h : decodePayload offset opcode bytes = .error stop) :
    opcode.size ≤ stop.consumed ∧ stop.consumed ≤ opcode.size + bytes.length := by
  unfold decodePayload at h
  simp only at h
  split at h
  · split at h
    · cases h
    · cases h
      exact ⟨Nat.le_refl _, Nat.le_add_right ..⟩
  · split at h
    · cases h
      exact ⟨Nat.le_refl _, Nat.le_add_right ..⟩
    · next count table hcount =>
      obtain ⟨rfl, hlength⟩ := Bytes.split?_eq_some_iff.mp hcount
      have hconsumed : stop.consumed = opcode.size + 4 := by
        split at h
        · cases h
          rfl
        · split at h
          · cases h
          · cases h
            rfl
      rw [hconsumed, List.length_append, hlength]
      omega

/-- A failed read of an instruction has consumed a byte at least, and not more than there are. -/
theorem consumed_of_decode (h : decode offset bytes = .error stop) (hbytes : bytes ≠ []) :
    0 < stop.consumed ∧ stop.consumed ≤ bytes.length := by
  rcases bind_eq_error_iff.mp h with hopcode | ⟨⟨opcode, rest⟩, hopcode, hoperand⟩
  · exact consumed_of_decodeOpCode hopcode hbytes
  · obtain ⟨-, rfl⟩ := decodeOpCode_eq_ok_iff.mp hopcode
    have hpos := opcode.size_pos
    rw [List.length_append, opcode.length_encoding]
    rcases bind_eq_error_iff.mp hoperand with hpayload | ⟨payload, hpayload, htarget⟩
    · have hconsumed := consumed_of_decodePayload hpayload
      omega
    · obtain ⟨-, rest, rfl⟩ := decodePayload_eq_ok_iff.mp hpayload
      simp only at htarget
      split at htarget
      · cases htarget
      · cases htarget
        rw [List.length_append]
        simp only
        omega

/-- An instruction that is read starts at the offset and ends within the bytes. -/
theorem bounds_of_decode {i : Instruction} (h : decode offset bytes = .ok i) :
    i.offset = offset ∧ 0 < i.size ∧ i.size ≤ bytes.length := by
  obtain ⟨p, -, -, ⟨rest, rfl⟩, rfl⟩ := decode_eq_ok_iff.mp h
  refine ⟨rfl, p.size_pos, ?_⟩
  rw [List.length_append]
  exact Nat.le_add_right ..

end Instruction

namespace Cursor

/-! ## One call -/

/-- What a cursor can be asked for. -/
inductive Call
  /-- Reads a scalar of a kind. -/
  | read (kind : ScalarKind)
  /-- Moves over a number of bytes. -/
  | advance (n : Nat)
  /-- Reads an instruction. -/
  | decode

/-- What a call gives if it succeeds. -/
abbrev Call.Answer : Call → Type
  | .read kind => kind.Value
  | .advance _ => Unit
  | .decode => Instruction

/-- Makes a call: its result, and the cursor afterwards. -/
def perform (c : Cursor) : (call : Call) → Except Error call.Answer × Cursor
  | .read kind => c.read kind
  | .advance n => c.advance n
  | .decode => c.decode

/-- What a call does that starts at one position and stops at another, according to its result. -/
def Call.Does (data : List UInt8) (start stop : Nat) :
    (call : Call) → Except Error call.Answer → Prop
  | .read kind, .ok value =>
    stop = start + kind.width ∧ kind.toInt value = kind.number ((data.drop start).take kind.width)
  | .read kind, .error e =>
    e = .outOfBounds ∧ stop = start ∧
      (Instruction.wordLimit ≤ start + kind.width ∨ data.length < start + kind.width)
  | .advance n, .ok _ => stop = start + n
  | .advance n, .error e =>
    e = .outOfBounds ∧ stop = start ∧
      (Instruction.wordLimit ≤ start + n ∨ data.length < start + n)
  | .decode, .ok i => start < data.length ∧ i.offset = start ∧ stop = i.next
  | .decode, .error e =>
    if start = data.length then e = .outOfBounds ∧ stop = start else start < stop

/-- A call that was made, its result, and the cursor before and after it. -/
structure Turn where
  call : Call
  before : Cursor
  result : Except Error call.Answer
  after : Cursor

/-- Makes a call. -/
def turn (c : Cursor) (call : Call) : Turn :=
  ⟨call, c, (c.perform call).1, (c.perform call).2⟩

/-- Makes calls one after the other, whether they fail or not. -/
def turns : List Call → Cursor → List Turn
  | [], _ => []
  | call :: rest, c => c.turn call :: turns rest (c.turn call).after

/-- A call leaves the cursor in its data, does not move it back, and does what its result says. -/
structure Turn.Sound (data : List UInt8) (t : Turn) : Prop where
  inside : t.after.position ≤ data.length
  forward : t.before.position ≤ t.after.position
  does : t.call.Does data t.before.position t.after.position t.result

/-- A cursor stands in data: it is not beyond the end, and what follows it is what follows its
position. -/
structure On (data : List UInt8) (c : Cursor) : Prop where
  inside : c.position ≤ data.length
  rest : c.rest = data.drop c.position

/-- A new cursor stands in its data. -/
theorem on_ofBytes (data : List UInt8) : (ofBytes data).On data :=
  ⟨Nat.zero_le _, rfl⟩

namespace On

variable {data : List UInt8} {c : Cursor} (h : c.On data)

include h

/-- As many bytes follow a cursor as there are from its position on. -/
theorem position_add_length : c.position + c.rest.length = data.length := by
  have hinside := h.inside
  rw [h.rest, List.length_drop]
  omega

/-- A cursor that moves over bytes of the data stands in it. -/
theorem skip {n : Nat} (hn : c.position + n ≤ data.length) : (c.skip n).On data := by
  refine ⟨hn, ?_⟩
  show c.rest.drop n = data.drop (c.position + n)
  rw [h.rest, List.drop_drop]

/-- A cursor reads the scalar at its position. -/
theorem read_eq (kind : ScalarKind) :
    c.read kind = match kind.readAt data c.position with
      | (.ok value, _) => (.ok value, c.skip kind.width)
      | (.error e, _) => (.error e, c) := by
  simp only [Cursor.read, ScalarKind.readAt, ScalarKind.readAt?, h.rest]
  cases wordAdd? c.position kind.width <;> cases kind.read? (data.drop c.position) <;> rfl

/-- A cursor moves over bytes exactly if a machine word can hold the place behind them and it is not
beyond the end. -/
theorem advance_cases (n : Nat) :
    (c.position + n ≤ data.length ∧ c.advance n = (.ok (), c.skip n)) ∨
      (Instruction.wordLimit ≤ c.position + n ∨ data.length < c.position + n) ∧
        c.advance n = (.error .outOfBounds, c) := by
  have hlength := h.position_add_length
  rcases Nat.lt_or_ge (c.position + n) Instruction.wordLimit with hword | hword
  · have hadd : wordAdd? c.position n = some (c.position + n) := if_pos hword
    cases hsplit : Bytes.split? n c.rest with
    | none =>
      have hshort := Bytes.split?_eq_none_iff.mp hsplit
      exact .inr ⟨.inr (by omega), by simp only [advance, hadd, hsplit]⟩
    | some split =>
      obtain ⟨hrest, hfront⟩ := Bytes.split?_eq_some_iff.mp hsplit
      rw [hrest, List.length_append, hfront] at hlength
      exact .inl ⟨by omega, by simp only [advance, hadd, hsplit]⟩
  · have hadd : wordAdd? c.position n = none := if_neg (Nat.not_lt.mpr hword)
    exact .inr ⟨.inl hword, by simp only [advance, hadd]⟩

/-- A scalar that is read is the one at the cursor, and a read that fails changes nothing. -/
theorem sound_read (kind : ScalarKind) :
    (c.turn (.read kind)).Sound data ∧ (c.turn (.read kind)).after.On data := by
  have hturn : c.turn (.read kind) = ⟨.read kind, c, (c.read kind).1, (c.read kind).2⟩ := rfl
  rw [hturn, h.read_eq]
  rcases kind.readAt_cases data c.position with ⟨-, hinside, hread⟩ | ⟨hbeyond, hread⟩
  · have hlength : ((data.drop c.position).take kind.width).length = kind.width := by
      rw [List.length_take, List.length_drop]
      omega
    rw [hread]
    exact ⟨⟨hinside, Nat.le_add_right .., rfl, ScalarKind.toInt_decode hlength⟩, h.skip hinside⟩
  · rw [hread]
    exact ⟨⟨h.inside, Nat.le_refl _, rfl, rfl, hbeyond⟩, h⟩

/-- An advance moves over the bytes, and one that fails changes nothing. -/
theorem sound_advance (n : Nat) :
    (c.turn (.advance n)).Sound data ∧ (c.turn (.advance n)).after.On data := by
  have hturn : c.turn (.advance n) = ⟨.advance n, c, (c.advance n).1, (c.advance n).2⟩ := rfl
  rw [hturn]
  rcases h.advance_cases n with ⟨hinside, hadvance⟩ | ⟨hbeyond, hadvance⟩
  · rw [hadvance]
    exact ⟨⟨hinside, Nat.le_add_right .., rfl⟩, h.skip hinside⟩
  · rw [hadvance]
    exact ⟨⟨h.inside, Nat.le_refl _, rfl, rfl, hbeyond⟩, h⟩

/-- An instruction that is read stands at the cursor, which moves to its end. If the read fails, the
cursor moves on all the same, unless it is at the end. -/
theorem sound_decode : (c.turn .decode).Sound data ∧ (c.turn .decode).after.On data := by
  have hlength := h.position_add_length
  have hturn : c.turn .decode = ⟨.decode, c, c.decode.1, c.decode.2⟩ := rfl
  rw [hturn, Cursor.decode]
  cases hread : Instruction.decode c.position c.rest with
  | ok i =>
    obtain ⟨hoffset, hpos, hsize⟩ := Instruction.bounds_of_decode hread
    have hinside : c.position + i.size ≤ data.length := by omega
    have hmore : c.position < data.length := by omega
    refine ⟨⟨hinside, Nat.le_add_right .., hmore, hoffset, ?_⟩, h.skip hinside⟩
    rw [Instruction.next, hoffset]
    rfl
  | error stop =>
    by_cases hend : c.position = data.length
    · have hnil : c.rest = [] := List.eq_nil_of_length_eq_zero (by omega)
      rw [hnil] at hread
      cases hread
      refine ⟨⟨h.inside, Nat.le_refl _, ?_⟩, h.skip h.inside⟩
      exact (if_pos hend).mpr ⟨rfl, rfl⟩
    · have hne : c.rest ≠ [] := by
        intro hnil
        rw [hnil, List.length_nil] at hlength
        exact hend hlength
      obtain ⟨hpos, hle⟩ := Instruction.consumed_of_decode hread hne
      have hinside : c.position + stop.consumed ≤ data.length := by omega
      refine ⟨⟨hinside, Nat.le_add_right .., ?_⟩, h.skip hinside⟩
      exact (if_neg hend).mpr (Nat.lt_add_of_pos_right hpos)

/-- A call on a cursor that stands in its data does what it is to do, and the cursor still stands in
its data. -/
theorem sound_turn (call : Call) : (c.turn call).Sound data ∧ (c.turn call).after.On data := by
  cases call with
  | read kind => exact h.sound_read kind
  | advance n => exact h.sound_advance n
  | decode => exact h.sound_decode

/-- So does every call of a sequence, also after calls that failed. -/
theorem sound_of_mem_turns {calls : List Call} {t : Turn} (ht : t ∈ turns calls c) :
    t.Sound data := by
  -- A call that fails also leaves the cursor on the data, so the induction goes on from there.
  induction calls generalizing c with
  | nil => cases ht
  | cons call rest ih =>
    obtain ⟨hsound, hon⟩ := h.sound_turn call
    rcases List.mem_cons.mp ht with rfl | ht
    · exact hsound
    · exact ih hon ht

end On

/-- Whatever calls are made on a cursor over data, one after the other and whether they fail or not:
each leaves the cursor in the data and does not move it back. A scalar that is read is the number
that the next bytes stand for, and the cursor moves over them; a failed read of a scalar, or a
failed advance, leaves it where it was. An instruction that is read stands at the cursor, which
moves to its end; a failed read of one moves the cursor on, except at the end of the data, where the
read is out of bounds and the cursor stays. -/
theorem turns_sound (data : List UInt8) (calls : List Call) :
    ∀ t ∈ turns calls (ofBytes data), t.Sound data :=
  fun _ ht => (on_ofBytes data).sound_of_mem_turns ht

/-- A switch whose table is cut off. -/
def cutSwitch : List UInt8 :=
  [0x45, 2, 0, 0, 0, 9]

/-- Calls on the switch. The advance is too far, reading the instruction fails behind the number of
its cases, the one byte that is left is too short for a number of four bytes, and after that byte
there is nothing. -/
def switchCalls : List Call :=
  [.advance 0xFFFFFFFFFFFFFFFF, .decode, .read .u32, .read .u8, .decode]

/-- The positions after the calls. The call that fails to read the instruction is sound too. -/
theorem turns_sound_switch :
    (turns switchCalls (ofBytes cutSwitch)).map (·.after.position) = [0, 5, 5, 6, 6] ∧
      ∃ t ∈ turns switchCalls (ofBytes cutSwitch),
        t.before.position = 0 ∧ t.after.position = 5 ∧ t.Sound cutSwitch := by
  have hmem : (ofBytes cutSwitch).turn .decode ∈ turns switchCalls (ofBytes cutSwitch) :=
    .tail _ (.head _)
  refine ⟨by decide +kernel, _, hmem, by decide +kernel, by decide +kernel, ?_⟩
  exact turns_sound _ switchCalls _ hmem

end Cursor

end Provenance
