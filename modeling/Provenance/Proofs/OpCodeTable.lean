import Mathlib.Data.List.Basic
import Mathlib.Data.List.Sort
import Provenance.Instruction.Decode

/-!
# The opcode table is a prefix code

Opcodes of one byte stay below the escape byte, and opcodes of two bytes start with it, so an
opcode is read back from its encoding whatever follows (`Instruction.decodeOpCode_eq_ok_iff`): no
encoding is the start of another one (`Instruction.encoding_append_inj`). The mnemonics of the table
are distinct, so an opcode is also found by its mnemonic (`OpCode.ofName?_eq_some_iff`).
-/

namespace Provenance

namespace OpCode

/-! ## The table -/

/-- The opcodes of one byte are in ascending order. -/
theorem pairwise_oneByte : oneByte.Pairwise (·.value < ·.value) := by
  have hchain : oneByte.IsChain (·.value < ·.value) := by decide +kernel
  exact List.isChain_iff_pairwise.mp hchain

/-- The opcodes of two bytes are in ascending order. -/
theorem pairwise_twoByte : twoByte.Pairwise (·.value < ·.value) := by
  have hchain : twoByte.IsChain (·.value < ·.value) := by decide +kernel
  exact List.isChain_iff_pairwise.mp hchain

/-- Opcodes of one byte stay below the escape byte. -/
theorem value_lt_of_mem_oneByte : ∀ o ∈ oneByte, o.value < 0xFE := by
  decide +kernel

/-- Opcodes of two bytes have the escape byte as their higher one. -/
theorem value_of_mem_twoByte : ∀ o ∈ twoByte, 0xFE00 ≤ o.value ∧ o.value ≤ 0xFEFF := by
  decide +kernel

/-- The mnemonic of an opcode as one number, which is compared faster than the text. -/
def nameCode (o : OpCode) : Nat :=
  o.name.toByteArray.data.toList.foldl (fun n byte => n * 256 + byte.toNat) 0

/-- Different opcodes have different mnemonics. -/
theorem pairwise_name : all.Pairwise (·.name ≠ ·.name) := by
  have hchain : ((all.map nameCode).insertionSort (· ≤ ·)).IsChain (· < ·) := by decide +kernel
  have hsorted : ((all.map nameCode).insertionSort (· ≤ ·)).Nodup :=
    (List.isChain_iff_pairwise.mp hchain).imp Nat.ne_of_lt
  have hnodup : (all.map nameCode).Nodup := (List.perm_insertionSort ..).nodup_iff.mp hsorted
  refine (List.pairwise_map.mp hnodup).imp fun hne hname => hne ?_
  rw [nameCode, nameCode, hname]

/-- If no two opcodes of a table have the same key, a search by key finds the opcode with that
key. -/
theorem find?_eq_some_iff_of_pairwise {κ : Type} [DecidableEq κ] {key : OpCode → κ}
    {table : List OpCode} (h : table.Pairwise (key · ≠ key ·)) {k : κ} {o : OpCode} :
    table.find? (key · = k) = some o ↔ o ∈ table ∧ key o = k := by
  refine ⟨fun hfind => ⟨List.mem_of_find?_eq_some hfind, by simpa using List.find?_some hfind⟩, ?_⟩
  rintro ⟨hmem, rfl⟩
  induction table with
  | nil => cases hmem
  | cons first rest ih =>
    obtain ⟨hfirst, hrest⟩ := List.pairwise_cons.mp h
    rcases List.mem_cons.mp hmem with rfl | hmem
    · simp
    · simp [hfirst o hmem, ih hrest hmem]

/-- In ascending opcodes, a search by value finds the opcode with that value. -/
theorem find?_value_eq_some_iff {table : List OpCode} (h : table.Pairwise (·.value < ·.value))
    {value : UInt16} {o : OpCode} :
    table.find? (·.value = value) = some o ↔ o ∈ table ∧ o.value = value :=
  find?_eq_some_iff_of_pairwise (h.imp UInt16.ne_of_lt)

/-- A search by mnemonic finds the opcode with that mnemonic. -/
theorem ofName?_eq_some_iff {name : String} {o : OpCode} :
    ofName? name = some o ↔ o ∈ all ∧ o.name = name :=
  find?_eq_some_iff_of_pairwise pairwise_name

/-! ## Encodings -/

/-- The encoding of an opcode has as many bytes as its size says. -/
@[simp] theorem length_encoding (o : OpCode) : o.encoding.length = o.size := by
  unfold encoding size
  split <;> rfl

/-- An opcode takes at least one byte. -/
theorem size_pos (o : OpCode) : 0 < o.size := by
  unfold size
  split <;> decide

/-- An opcode of one byte is written as that byte. -/
theorem encoding_of_mem_oneByte {o : OpCode} (h : o ∈ oneByte) :
    o.encoding = [o.value.toUInt8] := by
  have hlt := value_lt_of_mem_oneByte o h
  rw [UInt16.lt_iff_toNat_lt] at hlt
  refine if_neg ?_
  rw [UInt16.lt_iff_toNat_lt]
  simp at hlt ⊢
  omega

/-- An opcode of two bytes is written as the escape byte and its lower byte. -/
theorem encoding_of_mem_twoByte {o : OpCode} (h : o ∈ twoByte) :
    o.encoding = [escape, o.value.toUInt8] := by
  obtain ⟨hlow, hhigh⟩ := value_of_mem_twoByte o h
  rw [UInt16.le_iff_toNat_le] at hlow hhigh
  have hlarge : 0xFF < o.value := by
    rw [UInt16.lt_iff_toNat_lt]
    simp at hlow ⊢
    omega
  have hescape : (o.value >>> 8).toUInt8 = escape := by
    rw [← UInt8.toNat_inj]
    simp [escape, Nat.shiftRight_eq_div_pow] at hlow hhigh ⊢
    omega
  rw [encoding, if_pos hlarge, hescape]

/-- A single byte encodes the opcode of one byte that is written with it. -/
theorem ofByte?_eq_some_iff {byte : UInt8} {o : OpCode} :
    ofByte? byte = some o ↔ o ∈ oneByte ∧ o.encoding = [byte] := by
  rw [ofByte?, find?_value_eq_some_iff pairwise_oneByte]
  refine and_congr_right fun hmem => ?_
  have hlt := value_lt_of_mem_oneByte o hmem
  rw [UInt16.lt_iff_toNat_lt] at hlt
  rw [encoding_of_mem_oneByte hmem, List.cons.injEq, and_iff_left rfl, ← UInt16.toNat_inj,
    ← UInt8.toNat_inj]
  simp at hlt ⊢
  omega

/-- The escape byte and a second one encode the opcode of two bytes that is written with them. -/
theorem ofEscaped?_eq_some_iff {second : UInt8} {o : OpCode} :
    ofEscaped? second = some o ↔ o ∈ twoByte ∧ o.encoding = [escape, second] := by
  rw [ofEscaped?, find?_value_eq_some_iff pairwise_twoByte]
  refine and_congr_right fun hmem => ?_
  obtain ⟨hlow, hhigh⟩ := value_of_mem_twoByte o hmem
  have hsecond := second.toNat_lt
  rw [UInt16.le_iff_toNat_le] at hlow hhigh
  rw [encoding_of_mem_twoByte hmem, List.cons.injEq, List.cons.injEq, and_iff_left rfl,
    and_iff_right rfl, ← UInt16.toNat_inj, ← UInt8.toNat_inj]
  simp at hlow hhigh ⊢
  omega

/-- The escape byte is no opcode. -/
theorem ofByte?_escape : ofByte? escape = none := by
  decide +kernel

end OpCode

namespace Instruction

open OpCode

/-- An opcode is read exactly if its encoding stands at the front. -/
theorem decodeOpCode_eq_ok_iff {offset : Nat} {bytes rest : List UInt8} {o : OpCode} :
    decodeOpCode offset bytes = .ok (o, rest) ↔ o ∈ all ∧ bytes = o.encoding ++ rest := by
  rw [all, List.mem_append, or_and_right]
  constructor
  · intro h
    unfold decodeOpCode at h
    split at h
    · cases h
    next first tail =>
    split at h
    · next hbyte =>
      cases h
      obtain ⟨hmem, henc⟩ := ofByte?_eq_some_iff.mp hbyte
      exact .inl ⟨hmem, by rw [henc]; rfl⟩
    · split at h
      · next hescape =>
        split at h
        · cases h
        split at h
        · next hpair =>
          cases h
          obtain ⟨hmem, henc⟩ := ofEscaped?_eq_some_iff.mp hpair
          exact .inr ⟨hmem, by rw [henc, hescape]; rfl⟩
        · cases h
      · cases h
  · rintro (⟨hmem, rfl⟩ | ⟨hmem, rfl⟩)
    · have henc := encoding_of_mem_oneByte hmem
      rw [henc, List.singleton_append]
      simp only [decodeOpCode, ofByte?_eq_some_iff.mpr ⟨hmem, henc⟩]
    · have henc := encoding_of_mem_twoByte hmem
      rw [henc, List.cons_append, List.singleton_append]
      simp only [decodeOpCode, ofByte?_escape, ↓reduceIte,
        ofEscaped?_eq_some_iff.mpr ⟨hmem, henc⟩]

/-- No encoding of an opcode is the start of another one. -/
theorem encoding_append_inj {o o' : OpCode} {rest rest' : List UInt8} (ho : o ∈ all)
    (ho' : o' ∈ all) (h : o.encoding ++ rest = o'.encoding ++ rest') : o = o' ∧ rest = rest' := by
  have hread : decodeOpCode 0 (o.encoding ++ rest) = .ok (o, rest) :=
    decodeOpCode_eq_ok_iff.mpr ⟨ho, rfl⟩
  rw [h, decodeOpCode_eq_ok_iff.mpr ⟨ho', rfl⟩] at hread
  cases hread
  exact ⟨rfl, rfl⟩

end Instruction

end Provenance
