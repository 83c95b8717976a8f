import Mathlib.Data.List.Forall2
import Provenance.Assembler
import Provenance.Proofs.Scalars

/-!
# What operations write

An operation fails and changes nothing, or it writes one instruction, or it defines a label
(`Assembler.Operation.outcome_perform`). So after any operations the assembler holds instructions
that were written one after the other (`Assembler.Holds`), with a fixup for each displacement that
is still to be filled in and with labels only where an instruction starts or the body ends. They
are the instructions of the operations that emitted one, where these emitted them
(`Assembler.holds_run`).
-/

namespace Provenance

namespace Assembler

/-! ## One operation -/

/-- What an instruction is emitted with. -/
inductive Emission
  /-- A mnemonic and an operand, or none. -/
  | plain (mnemonic : String) (operand : Option Operand)
  /-- A branch and its label. -/
  | branch (mnemonic name : String)
  /-- A switch and the labels of its cases. -/
  | table (names : List String)

/-- What an operation emits, if it is not the definition of a label. -/
def Operation.emission? : Operation → Option Emission
  | .emit mnemonic operand => some (.plain mnemonic operand)
  | .emitToken mnemonic token => some (.plain mnemonic (some (.token token)))
  | .emitConstant value => some (.plain (constantForm value).1 (constantForm value).2)
  | .emitLoad index => some (.plain (localForm "ldloc" index).1 (localForm "ldloc" index).2)
  | .emitStore index => some (.plain (localForm "stloc" index).1 (localForm "stloc" index).2)
  | .emitBranch mnemonic name => some (.branch mnemonic name)
  | .emitSwitch names => some (.table names)
  | .define _ => none

/-- The instruction that is written for an emission. -/
inductive Item.Writes : Emission → Item → Prop
  | code {mnemonic : String} {operand : Option Operand} {opcode : OpCode} {payload : List UInt8}
      (lookup : OpCode.ofName? mnemonic = some opcode)
      (encode : Operand.encode mnemonic opcode.operand operand = .ok payload) :
      Writes (.plain mnemonic operand) (.code opcode payload)
  | branch {mnemonic name : String} {opcode : OpCode}
      (lookup : OpCode.ofName? mnemonic = some opcode) (branch : isBranch opcode) :
      Writes (.branch mnemonic name) (.branch opcode name)
  | table {names : List String} {opcode : OpCode}
      (lookup : OpCode.ofName? "switch" = some opcode) (count : names.length < 0x100000000) :
      Writes (.table names) (.table opcode names)

/-- The ways in which an operation can go. -/
inductive Outcome (a : Assembler) : Option Emission → EStateM.Result Error Assembler Unit → Prop
  /-- The operation fails and leaves the assembler as it was. -/
  | failed {emission? : Option Emission} (e : Error) : Outcome a emission? (.error e a)
  /-- The operation writes an instruction. -/
  | wrote {emission : Emission} {item : Item} (writes : item.Writes emission) :
      Outcome a (some emission) (.ok () (a.append item))
  /-- The operation gives the current position a name that is not in use. -/
  | defined {name : String} (fresh : a.offset? name = none) :
      Outcome a none (.ok () { a with labels := (name, a.position) :: a.labels })

/-- A check at the start of an action makes it fail or gives it a value. -/
theorem ofExcept_bind {α : Type} (x : Except Error α) (f : α → Action) (a : Assembler) :
    (ofExcept x >>= f) a = match x with
      | .ok value => f value a
      | .error e => .error e a := by
  cases x <;> rfl

/-- A mnemonic that is found has an opcode of that name. -/
theorem ofName?_of_lookup {mnemonic : String} {opcode : OpCode}
    (h : lookup mnemonic = .ok opcode) : OpCode.ofName? mnemonic = some opcode := by
  unfold lookup at h
  split at h
  · next hname =>
    cases h
    exact hname
  · cases h

/-- Emitting an instruction fails, or writes it. -/
theorem outcome_emit (a : Assembler) (mnemonic : String) (operand : Option Operand) :
    Outcome a (some (.plain mnemonic operand)) (emit mnemonic operand a) := by
  rw [emit, ofExcept_bind]
  cases hlookup : lookup mnemonic with
  | error e => exact .failed e
  | ok opcode =>
    simp only [ofExcept_bind]
    cases hencode : Operand.encode mnemonic opcode.operand operand with
    | error e => exact .failed e
    | ok payload => exact .wrote (.code (ofName?_of_lookup hlookup) hencode)

/-- Emitting a branch fails, or writes it. -/
theorem outcome_emitBranch (a : Assembler) (mnemonic name : String) :
    Outcome a (some (.branch mnemonic name)) (emitBranch mnemonic name a) := by
  rw [emitBranch, ofExcept_bind]
  cases hlookup : lookup mnemonic with
  | error e => exact .failed e
  | ok opcode =>
    simp only
    split
    · next hbranch => exact .wrote (.branch (ofName?_of_lookup hlookup) hbranch)
    · exact .failed _

/-- Emitting a switch fails, or writes it. -/
theorem outcome_emitSwitch (a : Assembler) (names : List String) :
    Outcome a (some (.table names)) (emitSwitch names a) := by
  unfold emitSwitch
  split
  · exact .failed _
  · split
    · next hcount =>
      rw [ofExcept_bind]
      cases hlookup : lookup "switch" with
      | error e => exact .failed e
      | ok opcode => exact .wrote (.table (ofName?_of_lookup hlookup) hcount)
    · exact .failed _

/-- A label is defined if it is not in use. -/
theorem define_eq (a : Assembler) (name : String) :
    define name a = if (a.offset? name).isSome then .error (.duplicateLabel name) a
      else .ok () { a with labels := (name, a.position) :: a.labels } := by
  have hget : define name a = (if (a.offset? name).isSome then throw (.duplicateLabel name)
      else set { a with labels := (name, a.position) :: a.labels } : Action) a := rfl
  rw [hget]
  split <;> rfl

/-- Defining a label fails, or names the current position. -/
theorem outcome_define (a : Assembler) (name : String) : Outcome a none (define name a) := by
  rw [define_eq]
  split
  · exact .failed _
  · next hfresh => exact .defined (Option.not_isSome_iff_eq_none.mp hfresh)

/-- What an operation can do. -/
theorem Operation.outcome_perform (op : Operation) (a : Assembler) :
    Outcome a op.emission? (op.perform a) := by
  cases op with
  | emit mnemonic operand => exact outcome_emit a mnemonic operand
  | emitToken mnemonic token => exact outcome_emit a mnemonic (some (.token token))
  | emitConstant value => exact outcome_emit a _ _
  | emitLoad index => exact outcome_emit a _ _
  | emitStore index => exact outcome_emit a _ _
  | emitBranch mnemonic name => exact outcome_emitBranch a mnemonic name
  | emitSwitch names => exact outcome_emitSwitch a names
  | define name => exact outcome_define a name

/-! ## Operations that succeed -/

section

variable {mnemonic name : String} {opcode : OpCode} (a : Assembler)

/-- A mnemonic of the table is found. -/
theorem lookup_of_ofName? (h : OpCode.ofName? mnemonic = some opcode) :
    lookup mnemonic = .ok opcode := by
  rw [lookup, h]

/-- An instruction is emitted if its operand can be encoded. -/
theorem emit_eq_ok {operand : Option Operand} {payload : List UInt8}
    (hlookup : OpCode.ofName? mnemonic = some opcode)
    (hencode : Operand.encode mnemonic opcode.operand operand = .ok payload) :
    emit mnemonic operand a = .ok () (a.append (.code opcode payload)) := by
  simp only [emit, ofExcept_bind, lookup_of_ofName? hlookup, hencode]
  rfl

/-- A branch is emitted whatever its label. -/
theorem emitBranch_eq_ok (hlookup : OpCode.ofName? mnemonic = some opcode)
    (hbranch : isBranch opcode) :
    emitBranch mnemonic name a = .ok () (a.append (.branch opcode name)) := by
  simp only [emitBranch, ofExcept_bind, lookup_of_ofName? hlookup, if_pos hbranch]
  rfl

/-- A switch is emitted if it has cases and they can be counted. -/
theorem emitSwitch_eq_ok {names : List String} (hlookup : OpCode.ofName? "switch" = some opcode)
    (hne : names ≠ []) (hcount : names.length < 0x100000000) :
    emitSwitch names a = .ok () (a.append (.table opcode names)) := by
  have hempty : ¬ names.isEmpty := fun h => hne (List.isEmpty_iff.mp h)
  simp only [emitSwitch, if_neg hempty, if_pos hcount, ofExcept_bind, lookup_of_ofName? hlookup]
  rfl

/-- A label that is not in use is defined. -/
theorem define_eq_ok (hfresh : a.offset? name = none) :
    define name a = .ok () { a with labels := (name, a.position) :: a.labels } := by
  rw [define_eq, hfresh]
  rfl

end

/-! ## What an assembler holds -/

namespace Item

/-- The opcode of an instruction. -/
def opcode : Item → OpCode
  | .code opcode _ | .branch opcode _ | .table opcode _ => opcode

/-- The bytes after the opcode as they are written at first. -/
def draft : Item → List UInt8
  | .code _ payload => payload
  | .branch opcode _ => zeros (fieldWidth opcode)
  | .table _ names =>
    ScalarKind.u32.encode (UInt32.ofNat names.length) ++ zeros (4 * names.length)

/-- The instruction as it is written at first. -/
def skeleton (item : Item) : List UInt8 :=
  item.opcode.encoding ++ item.draft

/-- Number of bytes of an instruction. -/
def size (item : Item) : Nat :=
  item.skeleton.length

end Item

/-- An instruction and where it stands. -/
structure Placed where
  position : Nat
  item : Item

namespace Placed

/-- Where an instruction ends. -/
def stop (p : Placed) : Nat :=
  p.position + p.item.size

/-- The displacement of a branch that is to be filled in. -/
def fixup? (p : Placed) : Option Fixup :=
  match p.item with
  | .branch opcode name => some ⟨name, p.position + opcode.encoding.length, fieldWidth opcode⟩
  | _ => none

/-- The displacements of a switch that are to be filled in. -/
def table? (p : Placed) : Option TableFixup :=
  match p.item with
  | .table opcode names => some ⟨names, p.position + opcode.encoding.length + 4, p.stop⟩
  | _ => none

end Placed

/-- Instructions one after the other. -/
def layout (position : Nat) : List Item → List Placed
  | [] => []
  | item :: rest => ⟨position, item⟩ :: layout (position + item.size) rest

/-- The bytes of instructions as they are written at first. -/
def skeletons (items : List Item) : List UInt8 :=
  items.flatMap Item.skeleton

@[simp] theorem skeletons_cons (item : Item) (items : List Item) :
    skeletons (item :: items) = item.skeleton ++ skeletons items := rfl

@[simp] theorem skeletons_append (items rest : List Item) :
    skeletons (items ++ rest) = skeletons items ++ skeletons rest :=
  List.flatMap_append ..

@[simp] theorem skeletons_singleton (item : Item) : skeletons [item] = item.skeleton :=
  List.append_nil _

/-- Instructions stand after those before them. -/
theorem layout_append (position : Nat) (items rest : List Item) :
    layout position (items ++ rest) =
      layout position items ++ layout (position + (skeletons items).length) rest := by
  induction items generalizing position with
  | nil => rfl
  | cons item items ih =>
    rw [List.cons_append, layout, ih, layout, List.cons_append, skeletons_cons,
      List.length_append, ← Item.size, Nat.add_assoc]

/-- The assembler holds instructions that were written one after the other, each with the fixups it
needs. Labels stand only where an instruction starts, or at the end. -/
structure Holds (a : Assembler) (items : List Item) : Prop where
  code : a.code.toList = skeletons items
  fixups : a.fixups.toList = (layout 0 items).filterMap Placed.fixup?
  tables : a.tables.toList = (layout 0 items).filterMap Placed.table?
  labels : ∀ name offset, a.offset? name = some offset →
    ∃ before after, items = before ++ after ∧ offset = (skeletons before).length

/-- A new assembler holds nothing. -/
theorem holds_empty : Holds empty [] :=
  ⟨rfl, rfl, rfl, fun _ _ h => nomatch h⟩

/-- The current position is after what has been written. -/
theorem Holds.position_eq {a : Assembler} {items : List Item} (h : Holds a items) :
    a.position = (skeletons items).length := by
  rw [position, ← Array.length_toList, h.code]

/-- Bytes that are appended count. -/
theorem size_append_list (code : Array UInt8) (bytes : List UInt8) :
    (code ++ bytes).size = code.size + bytes.length := by
  rw [← Array.length_toList, Array.toList_appendList, List.length_append, Array.length_toList]

/-- Writing an instruction defines no label. -/
@[simp] theorem labels_append (a : Assembler) (item : Item) :
    (a.append item).labels = a.labels := by
  cases item <;> rfl

/-- Writing an instruction appends its skeleton and its fixups. -/
theorem Holds.append {a : Assembler} {items : List Item} (h : Holds a items) (item : Item) :
    Holds (a.append item) (items ++ [item]) := by
  have hsize : a.code.size = (skeletons items).length := h.position_eq
  refine ⟨?_, ?_, ?_, ?_⟩
  · rw [skeletons_append, skeletons_singleton, ← h.code]
    cases item <;>
      simp only [Assembler.append, Array.toList_appendList, List.append_assoc, Item.skeleton,
        Item.opcode, Item.draft]
  · rw [layout_append, List.filterMap_append, ← h.fixups, Nat.zero_add]
    cases item <;> simp [Assembler.append, layout, Placed.fixup?, size_append_list, hsize]
  · rw [layout_append, List.filterMap_append, ← h.tables, Nat.zero_add]
    cases item <;>
      simp [Assembler.append, layout, Placed.table?, Placed.stop, Item.size, Item.skeleton,
        Item.draft, Item.opcode, size_append_list, hsize, ScalarKind.width, Nat.add_assoc]
  · intro name offset hname
    have hlabels : (a.append item).offset? name = a.offset? name := by
      rw [offset?, labels_append, offset?]
    obtain ⟨before, after, hitems, hoffset⟩ := h.labels name offset (hlabels ▸ hname)
    exact ⟨before, after ++ [item], by rw [hitems, List.append_assoc], hoffset⟩

/-- Writing an instruction moves the position on by its size. -/
theorem Holds.position_append {a : Assembler} {items : List Item} (h : Holds a items)
    (item : Item) : (a.append item).position = a.position + item.size := by
  rw [(h.append item).position_eq, h.position_eq, skeletons_append, skeletons_singleton,
    List.length_append, Item.size]

/-- A label that is defined stands at the end. -/
theorem Holds.define {a : Assembler} {items : List Item} (h : Holds a items) (name : String) :
    Holds { a with labels := (name, a.position) :: a.labels } items := by
  refine ⟨h.code, h.fixups, h.tables, fun other offset hother => ?_⟩
  by_cases heq : name = other
  · have hoffset : offset = a.position := by
      simpa [offset?, heq] using hother.symm
    exact ⟨items, [], (List.append_nil _).symm, hoffset.trans h.position_eq⟩
  · refine h.labels other offset ?_
    simpa [offset?, heq] using hother

/-! ## A sequence of operations -/

/-- An instruction that was emitted: where, and with what. -/
structure Emitted where
  position : Nat
  emission : Emission

/-- Performs operations one after the other, whether they fail or not. The result is the assembler
after them and the instructions that they emitted. -/
def run : List Operation → Assembler → Assembler × List Emitted
  | [], a => (a, [])
  | op :: rest, a =>
    match op.perform a with
    | .ok _ b => ((run rest b).1, op.emission?.toList.map (⟨a.position, ·⟩) ++ (run rest b).2)
    | .error _ b => run rest b

/-- An emitted instruction stands where it was emitted and was written for its emission. -/
def Placed.IsFor (p : Placed) (e : Emitted) : Prop :=
  e.position = p.position ∧ p.item.Writes e.emission

/-- After any operations the assembler holds the instructions that they emitted. -/
theorem holds_run (ops : List Operation) {a : Assembler} {items : List Item} (h : Holds a items) :
    ∃ more, Holds (run ops a).1 (items ++ more) ∧
      List.Forall₂ (fun e p => p.IsFor e) (run ops a).2 (layout a.position more) := by
  induction ops generalizing a items with
  | nil => exact ⟨[], by simpa [run] using h, .nil⟩
  | cons op rest ih =>
    have houtcome := op.outcome_perform a
    unfold run
    generalize op.perform a = result, op.emission? = emission? at houtcome
    cases houtcome with
    | failed e => exact ih h
    | @wrote emission item writes =>
      obtain ⟨more, hmore, hlog⟩ := ih (h.append item)
      rw [h.position_append item] at hlog
      exact ⟨item :: more, by simpa using hmore, .cons ⟨rfl, writes⟩ hlog⟩
    | @defined name fresh =>
      obtain ⟨more, hmore, hlog⟩ := ih (h.define name)
      exact ⟨more, hmore, hlog⟩

end Assembler

end Provenance
