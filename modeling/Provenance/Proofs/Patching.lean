import Mathlib.Data.List.Perm.Basic
import Provenance.Proofs.Emission
import Provenance.Proofs.Outcome

/-!
# Filling in displacements

The displacements that an assembler has yet to fill in (`Assembler.Slot`) are those of its branches
and of the cases of its switches. They lie inside what has been written and do not overlap, because
each lies inside its instruction (`Assembler.Holds.pairwise_pending`). Finishing fills them in one
by one, branches first (`Assembler.finish_eq`): it fails at the first one whose label is not defined
or too far away, and otherwise changes them and nothing else. The order in which they are filled in
makes no difference (`Assembler.foldl_write_perm`).
-/

namespace Provenance

namespace Assembler

/-! ## Overwriting -/

/-- Bytes are overwritten in two parts as in one. -/
theorem patch_append (code : Array UInt8) (position : Nat) (bytes rest : List UInt8) :
    patch code position (bytes ++ rest) =
      patch (patch code position bytes) (position + bytes.length) rest := by
  induction bytes generalizing code position with
  | nil => rfl
  | cons byte bytes ih =>
    rw [List.cons_append, patch, ih, patch, List.length_cons, Nat.add_assoc, Nat.add_comm 1]

/-- Overwriting as many bytes as there are new ones leaves what is before and after them. -/
theorem toList_patch {code : Array UInt8} {before old new after : List UInt8}
    (hcode : code.toList = before ++ old ++ after) (hlength : old.length = new.length) :
    (patch code before.length new).toList = before ++ new ++ after := by
  induction new generalizing code before old with
  | nil => rw [patch, hcode, List.eq_nil_of_length_eq_zero hlength]
  | cons byte new ih =>
    obtain _ | ⟨first, old⟩ := old
    · cases hlength
    have hset : (code.setIfInBounds before.length byte).toList =
        (before ++ [byte]) ++ old ++ after := by
      rw [Array.toList_setIfInBounds, hcode]
      simp
    have hrest := ih hset (Nat.succ.inj hlength)
    rw [List.length_append, List.length_singleton] at hrest
    rw [patch, hrest]
    simp

/-- Overwriting keeps the number of bytes. -/
@[simp] theorem size_patch (code : Array UInt8) (position : Nat) (bytes : List UInt8) :
    (patch code position bytes).size = code.size := by
  induction bytes generalizing code position with
  | nil => rfl
  | cons byte bytes ih => rw [patch, ih, Array.size_setIfInBounds]

/-- What is not among the bytes that are overwritten stays. -/
theorem getElem?_patch_of_outside {code : Array UInt8} {position k : Nat} {bytes : List UInt8}
    (h : k < position ∨ position + bytes.length ≤ k) :
    (patch code position bytes)[k]? = code[k]? := by
  induction bytes generalizing code position with
  | nil => rfl
  | cons byte bytes ih =>
    rw [List.length_cons] at h
    rw [patch, ih (by omega), Array.getElem?_setIfInBounds_ne (by omega)]

/-- The bytes that are overwritten are the new ones. -/
theorem getElem?_patch_of_inside {code : Array UInt8} {position j : Nat} {bytes : List UInt8}
    (hj : j < bytes.length) (hsize : position + j < code.size) :
    (patch code position bytes)[position + j]? = bytes[j]? := by
  induction bytes generalizing code position j with
  | nil => cases hj
  | cons byte bytes ih =>
    rw [patch]
    cases j with
    | zero =>
      have hposition : position < code.size := hsize
      -- the bytes after the first one do not touch it
      rw [getElem?_patch_of_outside (.inl (by omega)), Nat.add_zero,
        Array.getElem?_setIfInBounds_self_of_lt hposition]
      rfl
    | succ j =>
      have hnext : position + 1 + j < (code.setIfInBounds position byte).size := by
        rw [Array.size_setIfInBounds]
        omega
      have heq : position + (j + 1) = position + 1 + j := by omega
      rw [heq, ih (Nat.lt_of_succ_lt_succ hj) hnext]
      rfl

/-! ## Displacements -/

/-- How far a label is from the end of an instruction. -/
def reach (a : Assembler) (stop : Nat) (name : String) : Int :=
  ((a.offset? name).getD 0 : Int) - stop

/-- A label is defined and lies within some span of the end of an instruction. -/
def Near (a : Assembler) (stop : Nat) (name : String) (span : Int) : Prop :=
  ∃ target : Nat, a.offset? name = some target ∧ -span ≤ (target : Int) - stop ∧
    (target : Int) - stop < span

/-- How far a displacement of so many bytes reaches. -/
def span (width : Nat) : Int :=
  if width = 1 then 0x80 else 0x80000000

/-- The bytes of a displacement. -/
def field (width : Nat) (d : Int) : List UInt8 :=
  if width = 1 then ScalarKind.i8.encode (Int8.ofInt d) else ScalarKind.i32.encode (Int32.ofInt d)

/-- The displacement of a label that is near. -/
theorem Near.reach_eq {a : Assembler} {stop : Nat} {name : String} {s : Int}
    (h : a.Near stop name s) : ∃ target : Nat, a.offset? name = some target ∧
      a.reach stop name = (target : Int) - stop ∧ -s ≤ a.reach stop name ∧
        a.reach stop name < s := by
  obtain ⟨target, htarget, hlow, hhigh⟩ := h
  have hreach : a.reach stop name = (target : Int) - stop := by
    rw [reach, htarget]
    rfl
  rw [hreach]
  exact ⟨target, htarget, rfl, hlow, hhigh⟩

/-- A displacement is found exactly for a label within the reach of four bytes. -/
theorem displacement_eq_ok_iff {a : Assembler} {stop : Nat} {name : String} {d : Int} :
    a.displacement stop name = .ok d ↔ a.Near stop name 0x80000000 ∧ d = a.reach stop name := by
  unfold displacement Near reach
  cases a.offset? name with
  | none => simp
  | some target =>
    simp only [Option.some.injEq, exists_eq_left', Option.getD_some]
    split
    · next hnear => simp [hnear, eq_comm]
    · next hfar =>
      simp only [reduceCtorEq, false_iff, not_and]
      exact fun hnear => absurd hnear hfar

/-- What is near is near within a larger span too. -/
theorem Near.mono {a : Assembler} {stop : Nat} {name : String} {s s' : Int}
    (h : a.Near stop name s) (hs : s ≤ s') : a.Near stop name s' := by
  obtain ⟨target, htarget, hlow, hhigh⟩ := h
  exact ⟨target, htarget, by omega, by omega⟩

/-- A displacement takes as many bytes as its width says. -/
theorem length_field {width : Nat} (h : width = 1 ∨ width = 4) (d : Int) :
    (field width d).length = width := by
  rcases h with rfl | rfl
  · exact ScalarKind.length_encode ..
  · exact ScalarKind.length_encode ..

/-- The displacement of a branch takes one byte or four. -/
theorem fieldWidth_cases (opcode : OpCode) : fieldWidth opcode = 1 ∨ fieldWidth opcode = 4 := by
  unfold fieldWidth
  split
  · exact .inl rfl
  · exact .inr rfl

/-! ## Displacements to fill in -/

/-- A displacement that is to be filled in. -/
structure Slot where
  /-- The label to which it leads. -/
  name : String
  /-- Where it stands. -/
  position : Nat
  /-- The number of its bytes. -/
  width : Nat
  /-- Where its instruction ends. -/
  stop : Nat
  deriving DecidableEq

/-- The displacements of a switch that ends at `stop`, four bytes each, from `position` on. -/
def caseSlots (position stop : Nat) (names : List String) : List Slot :=
  names.mapIdx fun k name => ⟨name, position + 4 * k, 4, stop⟩

/-- The displacement of a branch. -/
def Fixup.slot (f : Fixup) : Slot :=
  ⟨f.name, f.position, f.width, f.position + f.width⟩

/-- The displacements of a switch. -/
def TableFixup.slots (f : TableFixup) : List Slot :=
  caseSlots f.position f.stop f.names

/-- The displacements that an assembler has yet to fill in, those of branches first. -/
def pending (a : Assembler) : List Slot :=
  a.fixups.toList.map Fixup.slot ++ a.tables.toList.flatMap TableFixup.slots

namespace Slot

/-- An offset lies in a displacement. -/
def Covers (s : Slot) (k : Nat) : Prop :=
  s.position ≤ k ∧ k < s.position + s.width

/-- A displacement ends before another one starts. -/
def Before (s t : Slot) : Prop :=
  s.position + s.width ≤ t.position

/-- Two displacements do not overlap. -/
def Disjoint (s t : Slot) : Prop :=
  s.Before t ∨ t.Before s

/-- The label of a displacement is defined and as near as its width asks for. -/
def Fits (a : Assembler) (s : Slot) : Prop :=
  a.Near s.stop s.name (span s.width)

/-- The ways in which a displacement cannot be filled in. -/
inductive Fails (a : Assembler) (s : Slot) : Error → Prop
  /-- The label is not defined. -/
  | undefined (undefined : a.offset? s.name = none) : Fails a s (.undefinedLabel s.name)
  /-- The label is too far away for four bytes. -/
  | tooFar {target : Nat} (defined : a.offset? s.name = some target)
      (far : ¬ a.Near s.stop s.name 0x80000000) : Fails a s (.invalidBranch (.tooFar s.name))
  /-- The label is too far away for one byte only. -/
  | tooFarForShort (short : s.width = 1) (near : a.Near s.stop s.name 0x80000000)
      (far : ¬ a.Near s.stop s.name 0x80) :
      Fails a s (.invalidBranch (.tooFarForShort (a.reach s.stop s.name) s.name))

/-- The bytes of a displacement. -/
def bytes (a : Assembler) (s : Slot) : List UInt8 :=
  field s.width (a.reach s.stop s.name)

/-- Code with a displacement filled in. -/
def write (a : Assembler) (code : Array UInt8) (s : Slot) : Array UInt8 :=
  patch code s.position (s.bytes a)

end Slot

/-! ## Filling in one displacement -/

/-- Fills in a displacement, of a branch or of a case. -/
def fill (a : Assembler) (code : Array UInt8) (s : Slot) : Except Error (Array UInt8) := do
  let d ← a.displacement s.stop s.name
  if s.width = 1 ∧ ¬ (-0x80 ≤ d ∧ d < 0x80) then throw (.invalidBranch (.tooFarForShort d s.name))
  else return patch code s.position (field s.width d)

section

variable {a : Assembler} {s : Slot}

/-- A label that fits is within the reach of four bytes. -/
theorem Slot.Fits.near (h : s.Fits a) : a.Near s.stop s.name 0x80000000 := by
  refine h.mono ?_
  unfold span
  split <;> decide

/-- What fails does not fit. -/
theorem Slot.Fails.not_fits {e : Error} (h : s.Fails a e) : ¬ s.Fits a := by
  intro hfits
  cases h with
  | undefined hundefined =>
    obtain ⟨target, htarget, -⟩ := hfits
    cases hundefined.symm.trans htarget
  | tooFar _ hfar => exact hfar hfits.near
  | tooFarForShort hshort _ hfar =>
    rw [Fits, hshort] at hfits
    exact hfar hfits

/-- A displacement fails in one way only. -/
theorem Slot.Fails.unique {e e' : Error} (h : s.Fails a e) (h' : s.Fails a e') : e = e' := by
  cases h with
  | undefined hundefined =>
    cases h' with
    | undefined => rfl
    | tooFar hdefined => cases hundefined.symm.trans hdefined
    | tooFarForShort _ hnear =>
      obtain ⟨target, htarget, -⟩ := hnear
      cases hundefined.symm.trans htarget
  | tooFar hdefined hfar =>
    cases h' with
    | undefined hundefined => cases hundefined.symm.trans hdefined
    | tooFar => rfl
    | tooFarForShort _ hnear => exact absurd hnear hfar
  | tooFarForShort _ hnear =>
    cases h' with
    | undefined hundefined =>
      obtain ⟨target, htarget, -⟩ := hnear
      cases hundefined.symm.trans htarget
    | tooFar _ hfar => exact absurd hnear hfar
    | tooFarForShort => rfl

/-- A label within the reach of four bytes fits, unless there is one byte only and it is out of the
reach of that. -/
theorem Slot.fits_of_near (h : a.Near s.stop s.name 0x80000000)
    (hshort : s.width = 1 → -0x80 ≤ a.reach s.stop s.name ∧ a.reach s.stop s.name < 0x80) :
    s.Fits a := by
  unfold Fits span
  split
  · next hwidth =>
    obtain ⟨target, htarget, hreach, -⟩ := h.reach_eq
    exact ⟨target, htarget, hreach ▸ hshort hwidth⟩
  · exact h

/-- A displacement fits and is filled in, or fails. -/
theorem fill_cases (a : Assembler) (code : Array UInt8) (s : Slot) :
    (s.Fits a ∧ a.fill code s = .ok (s.write a code)) ∨
      ∃ e, s.Fails a e ∧ a.fill code s = .error e := by
  unfold fill
  cases htarget : a.offset? s.name with
  | none =>
    refine .inr ⟨_, .undefined htarget, ?_⟩
    rw [displacement, htarget]
    rfl
  | some target =>
    by_cases hnear : a.Near s.stop s.name 0x80000000
    · rw [displacement_eq_ok_iff.mpr ⟨hnear, rfl⟩]
      simp only [bind, Except.bind]
      split
      · next hshort =>
        refine .inr ⟨_, .tooFarForShort hshort.1 hnear fun hnear' => hshort.2 ?_, rfl⟩
        obtain ⟨-, -, -, hlow, hhigh⟩ := hnear'.reach_eq
        exact ⟨hlow, hhigh⟩
      · next hshort =>
        rw [not_and, not_not] at hshort
        exact .inl ⟨Slot.fits_of_near hnear hshort, rfl⟩
    · refine .inr ⟨_, .tooFar htarget hnear, ?_⟩
      have hfar : ¬ (-0x80000000 ≤ (target : Int) - s.stop ∧
          (target : Int) - s.stop < 0x80000000) :=
        fun hin => hnear ⟨target, htarget, hin⟩
      simp only [displacement, htarget, if_neg hfar]
      rfl

/-- A displacement is filled in exactly if it fits. -/
theorem fill_eq_ok_iff (code : Array UInt8) (s : Slot) (code' : Array UInt8) :
    a.fill code s = .ok code' ↔ s.Fits a ∧ code' = s.write a code := by
  rcases fill_cases a code s with ⟨hfits, hfill⟩ | ⟨e, hfails, hfill⟩
  · rw [hfill, Except.ok.injEq, eq_comm]
    exact (and_iff_right hfits).symm
  · rw [hfill]
    exact ⟨nofun, fun h => absurd h.1 hfails.not_fits⟩

/-- A displacement is refused exactly if it fails. -/
theorem fill_eq_error_iff (code : Array UInt8) (s : Slot) (e : Error) :
    a.fill code s = .error e ↔ s.Fails a e := by
  rcases fill_cases a code s with ⟨hfits, hfill⟩ | ⟨e', hfails, hfill⟩
  · rw [hfill]
    exact ⟨nofun, fun h => absurd hfits h.not_fits⟩
  · rw [hfill, Except.error.injEq]
    exact ⟨fun h => h ▸ hfails, fun h => hfails.unique h⟩

end

/-! ## Filling in all of them -/

section

variable {a : Assembler}

/-- The displacement of a branch is filled in like any other. -/
theorem fixBranch_eq (code : Array UInt8) (f : Fixup) :
    a.fixBranch code f = a.fill code f.slot := by
  unfold fixBranch fill
  refine congrArg _ (funext fun d => ?_)
  by_cases hwidth : f.width = 1
  · by_cases hshort : -0x80 ≤ d ∧ d < 0x80
    · simp [hwidth, hshort, field, Fixup.slot]
    · simp [hwidth, hshort, Fixup.slot]
  · simp [hwidth, field, Fixup.slot]

/-- The first displacement of a switch and those after it. -/
theorem caseSlots_cons (position stop : Nat) (name : String) (names : List String) :
    caseSlots position stop (name :: names) =
      ⟨name, position, 4, stop⟩ :: caseSlots (position + 4) stop names := by
  simp [caseSlots, List.mapIdx_cons, Nat.mul_add, Nat.add_assoc, Nat.add_comm 4]

/-- The displacements of a switch are filled in one after the other. -/
theorem fixCases_eq (stop position : Nat) (code : Array UInt8) (names : List String) :
    a.fixCases stop position code names = (caseSlots position stop names).foldlM a.fill code := by
  induction names generalizing position code with
  | nil => rfl
  | cons name names ih =>
    rw [fixCases, caseSlots_cons, List.foldlM_cons, fill, bind_assoc]
    refine congrArg _ (funext fun d => ?_)
    simp only [ih]
    rfl

/-- Finishing fills in the displacements one after the other. -/
theorem finish_eq (a : Assembler) :
    a.finish = (a.pending.foldlM a.fill a.code).map Array.toList := by
  have hbranches : a.fixBranch = fun code f => a.fill code f.slot :=
    funext fun code => funext fun f => fixBranch_eq code f
  have htables : a.fixTable = fun code f => f.slots.foldlM a.fill code :=
    funext fun code => funext fun f => fixCases_eq f.stop f.position code f.names
  rw [finish, pending, List.foldlM_append, List.foldlM_map, ← Array.foldlM_toList, hbranches]
  cases a.fixups.toList.foldlM (fun code f => a.fill code f.slot) a.code with
  | error e => rfl
  | ok code =>
    simp only [bind, Except.bind, foldlM_flatMap, ← Array.foldlM_toList, htables]
    cases a.tables.toList.foldlM (fun code f => f.slots.foldlM a.fill code) code <;> rfl

/-- A body is finished exactly if all displacements fit, and then has them filled in. -/
theorem finish_eq_ok_iff_fits {bytes : List UInt8} :
    a.finish = .ok bytes ↔ (∀ s ∈ a.pending, s.Fits a) ∧
      bytes = (a.pending.foldl (Slot.write a) a.code).toList := by
  rw [finish_eq]
  cases hfill : a.pending.foldlM a.fill a.code with
  | error e =>
    refine ⟨nofun, fun h => ?_⟩
    cases hfill.symm.trans ((foldlM_eq_ok_iff fill_eq_ok_iff).mpr ⟨h.1, rfl⟩)
  | ok code =>
    obtain ⟨hfits, rfl⟩ := (foldlM_eq_ok_iff fill_eq_ok_iff).mp hfill
    simp only [Except.map, Except.ok.injEq]
    exact ⟨fun h => ⟨hfits, h.symm⟩, fun h => h.2.symm⟩

/-- A body is refused exactly with the error of the first displacement that fails. -/
theorem finish_eq_error_iff_fails {e : Error} :
    a.finish = .error e ↔ ∃ before s after, a.pending = before ++ s :: after ∧
      (∀ t ∈ before, t.Fits a) ∧ s.Fails a e := by
  rw [finish_eq, ← foldlM_eq_error_iff fill_eq_ok_iff fill_eq_error_iff (s := a.code)]
  cases a.pending.foldlM a.fill a.code <;> simp [Except.map]

end

/-! ## What is changed -/

section

variable {a : Assembler}

/-- A displacement has as many bytes as its width says. -/
theorem Slot.length_bytes {s : Slot} (h : s.width = 1 ∨ s.width = 4) :
    (s.bytes a).length = s.width :=
  length_field h _

/-- Filling in displacements keeps the number of bytes. -/
theorem size_foldl_write (slots : List Slot) (code : Array UInt8) :
    (slots.foldl (Slot.write a) code).size = code.size := by
  induction slots generalizing code with
  | nil => rfl
  | cons s slots ih => rw [List.foldl_cons, ih, Slot.write, size_patch]

/-- Filling in displacements changes nothing outside of them. -/
theorem getElem?_foldl_write_of_outside {slots : List Slot} {code : Array UInt8} {k : Nat}
    (hwidth : ∀ s ∈ slots, s.width = 1 ∨ s.width = 4) (hk : ∀ s ∈ slots, ¬ s.Covers k) :
    (slots.foldl (Slot.write a) code)[k]? = code[k]? := by
  induction slots generalizing code with
  | nil => rfl
  | cons s slots ih =>
    obtain ⟨hs, hwidth⟩ := List.forall_mem_cons.mp hwidth
    obtain ⟨hcovers, hk⟩ := List.forall_mem_cons.mp hk
    have houtside : k < s.position ∨ s.position + (s.bytes a).length ≤ k := by
      rw [Slot.length_bytes hs]
      unfold Slot.Covers at hcovers
      omega
    rw [List.foldl_cons, ih hwidth hk, Slot.write, getElem?_patch_of_outside houtside]

/-- Displacements that do not overlap are all there after they are filled in. -/
theorem getElem?_foldl_write_of_covers {slots : List Slot} {code : Array UInt8} {s : Slot} {k : Nat}
    (hwidths : ∀ s ∈ slots, s.width = 1 ∨ s.width = 4) (hdisjoint : slots.Pairwise Slot.Disjoint)
    (hs : s ∈ slots) (hk : s.Covers k) (hsize : k < code.size) :
    (slots.foldl (Slot.write a) code)[k]? = (s.bytes a)[k - s.position]? := by
  induction slots generalizing code with
  | nil => cases hs
  | cons t slots ih =>
    obtain ⟨ht, hwidth⟩ := List.forall_mem_cons.mp hwidths
    obtain ⟨hfirst, hrests⟩ := List.pairwise_cons.mp hdisjoint
    rw [List.foldl_cons]
    rcases List.mem_cons.mp hs with rfl | hs
    · have hrest : ∀ t ∈ slots, ¬ t.Covers k := by
        intro t ht
        have := hfirst t ht
        unfold Slot.Disjoint Slot.Before at this
        unfold Slot.Covers at hk ⊢
        omega
      obtain ⟨j, rfl⟩ := Nat.exists_eq_add_of_le hk.1
      have hj : j < (s.bytes a).length := by
        rw [Slot.length_bytes ht]
        exact Nat.lt_of_add_lt_add_left hk.2
      rw [getElem?_foldl_write_of_outside hwidth hrest, Slot.write,
        getElem?_patch_of_inside hj hsize, Nat.add_sub_cancel_left]
    · exact ih hwidth hrests hs (by rwa [Slot.write, size_patch])

/-- Displacements that do not overlap can be filled in in any order. -/
theorem foldl_write_perm {slots slots' : List Slot} (hperm : slots.Perm slots')
    {code : Array UInt8} (hwidths : ∀ s ∈ slots, s.width = 1 ∨ s.width = 4)
    (hinside : ∀ s ∈ slots, s.position + s.width ≤ code.size)
    (hdisjoint : slots.Pairwise Slot.Disjoint) :
    slots.foldl (Slot.write a) code = slots'.foldl (Slot.write a) code := by
  have hwidths' : ∀ s ∈ slots', s.width = 1 ∨ s.width = 4 :=
    fun s hs => hwidths s (hperm.mem_iff.mpr hs)
  have hdisjoint' : slots'.Pairwise Slot.Disjoint := (hperm.pairwise_iff Or.symm).mp hdisjoint
  refine Array.ext_getElem? fun k => ?_
  by_cases hk : ∃ s ∈ slots, s.Covers k
  · obtain ⟨s, hs, hk⟩ := hk
    have hsize : k < code.size := Nat.lt_of_lt_of_le hk.2 (hinside s hs)
    rw [getElem?_foldl_write_of_covers hwidths hdisjoint hs hk hsize,
      getElem?_foldl_write_of_covers hwidths' hdisjoint' (hperm.mem_iff.mp hs) hk hsize]
  · have hk : ∀ s ∈ slots, ¬ s.Covers k := fun s hs hcovers => hk ⟨s, hs, hcovers⟩
    rw [getElem?_foldl_write_of_outside hwidths hk,
      getElem?_foldl_write_of_outside hwidths' fun s hs => hk s (hperm.mem_iff.mpr hs)]

end

/-! ## Where displacements stand -/

/-- The displacements of an instruction. -/
def Placed.slots (p : Placed) : List Slot :=
  p.fixup?.toList.map Fixup.slot ++ p.table?.toList.flatMap TableFixup.slots

namespace Placed

variable (position : Nat) (opcode : OpCode)

/-- A branch ends with its displacement. -/
theorem stop_branch (name : String) :
    (Placed.mk position (.branch opcode name)).stop =
      position + opcode.encoding.length + fieldWidth opcode := by
  simp [stop, Item.size, Item.skeleton, Item.opcode, Item.draft, zeros, Nat.add_assoc]

/-- The displacement of a branch stands after its opcode. -/
theorem slots_branch (name : String) :
    (Placed.mk position (.branch opcode name)).slots =
      [⟨name, position + opcode.encoding.length, fieldWidth opcode,
        position + opcode.encoding.length + fieldWidth opcode⟩] := rfl

/-- The displacements of a switch stand after its opcode and the number of its cases. -/
theorem slots_table (names : List String) :
    (Placed.mk position (.table opcode names)).slots =
      caseSlots (position + opcode.encoding.length + 4)
        (Placed.mk position (.table opcode names)).stop names :=
  List.append_nil _

/-- A switch ends with its displacements. -/
theorem stop_table (names : List String) :
    (Placed.mk position (.table opcode names)).stop =
      position + opcode.encoding.length + 4 + 4 * names.length := by
  simp [stop, Item.size, Item.skeleton, Item.opcode, Item.draft, zeros, ScalarKind.width,
    Nat.add_assoc]

end Placed

/-- The displacements of a switch, one by one. -/
theorem mem_caseSlots_iff {position stop : Nat} {names : List String} {s : Slot} :
    s ∈ caseSlots position stop names ↔
      ∃ k name, names[k]? = some name ∧ s = ⟨name, position + 4 * k, 4, stop⟩ := by
  simp only [caseSlots, List.mem_iff_getElem?, List.getElem?_mapIdx, Option.map_eq_some_iff]
  exact exists_congr fun k => exists_congr fun name => and_congr_right fun _ => eq_comm

/-- The displacements of a switch stand one after the other. -/
theorem pairwise_caseSlots (position stop : Nat) (names : List String) :
    (caseSlots position stop names).Pairwise Slot.Before := by
  induction names generalizing position with
  | nil => exact .nil
  | cons name names ih =>
    rw [caseSlots_cons]
    refine List.pairwise_cons.mpr ⟨fun s hs => ?_, ih (position + 4)⟩
    obtain ⟨k, _, -, rfl⟩ := mem_caseSlots_iff.mp hs
    exact Nat.le_add_right ..

/-- The displacements of an instruction lie inside it, and have one byte or four. -/
theorem Placed.bounds_of_mem_slots {p : Placed} {s : Slot} (hs : s ∈ p.slots) :
    p.position ≤ s.position ∧ s.position + s.width ≤ p.stop ∧ (s.width = 1 ∨ s.width = 4) := by
  obtain ⟨position, item⟩ := p
  cases item with
  | code opcode payload => cases hs
  | branch opcode name =>
    rw [slots_branch, List.mem_singleton] at hs
    subst hs
    exact ⟨Nat.le_add_right .., (stop_branch ..).ge, fieldWidth_cases opcode⟩
  | table opcode names =>
    rw [slots_table, mem_caseSlots_iff] at hs
    obtain ⟨k, name, hk, rfl⟩ := hs
    have hlt := (List.getElem?_eq_some_iff.mp hk).1
    rw [stop_table]
    dsimp only
    exact ⟨by omega, by omega, .inr rfl⟩

/-- The displacements of an instruction stand one after the other. -/
theorem Placed.pairwise_slots (p : Placed) : p.slots.Pairwise Slot.Before := by
  obtain ⟨position, item⟩ := p
  cases item with
  | code opcode payload => exact .nil
  | branch opcode name => exact List.pairwise_singleton ..
  | table opcode names =>
    rw [slots_table]
    exact pairwise_caseSlots ..

/-- Instructions lie one after the other in the range that they fill. -/
theorem pairwise_layout (position : Nat) (items : List Item) :
    (layout position items).Pairwise (·.stop ≤ ·.position) ∧
      ∀ p ∈ layout position items,
        position ≤ p.position ∧ p.stop ≤ position + (skeletons items).length := by
  induction items generalizing position with
  | nil => exact ⟨.nil, List.forall_mem_nil _⟩
  | cons item items ih =>
    obtain ⟨hpair, hbounds⟩ := ih (position + item.size)
    have hlength : (skeletons (item :: items)).length = item.size + (skeletons items).length := by
      rw [skeletons_cons, List.length_append, Item.size]
    rw [layout, List.forall_mem_cons, hlength]
    refine ⟨List.pairwise_cons.mpr ⟨fun p hp => (hbounds p hp).1, hpair⟩, ⟨?_, ?_⟩, fun p hp => ?_⟩
    · exact Nat.le_refl _
    · exact Nat.add_le_add_left (Nat.le_add_right ..) _
    · have := hbounds p hp
      omega

section

variable {a : Assembler} {items : List Item}

/-- What is to be filled in are the displacements of the instructions, in another order. -/
theorem Holds.pending_perm (h : Holds a items) :
    a.pending.Perm ((layout 0 items).flatMap Placed.slots) := by
  rw [pending, h.fixups, h.tables, List.filterMap_eq_flatMap_toList,
    List.filterMap_eq_flatMap_toList, List.map_flatMap, List.flatMap_assoc]
  exact List.flatMap_append_perm ..

/-- The displacements that are to be filled in lie inside what has been written. -/
theorem Holds.bounds_of_mem_pending (h : Holds a items) {s : Slot} (hs : s ∈ a.pending) :
    s.position + s.width ≤ a.position ∧ (s.width = 1 ∨ s.width = 4) := by
  obtain ⟨p, hp, hs⟩ := List.mem_flatMap.mp (h.pending_perm.mem_iff.mp hs)
  obtain ⟨-, hstop, hwidth⟩ := Placed.bounds_of_mem_slots hs
  obtain ⟨-, hend⟩ := (pairwise_layout 0 items).2 p hp
  rw [h.position_eq]
  exact ⟨by omega, hwidth⟩

/-- The displacements that are to be filled in do not overlap. -/
theorem Holds.pairwise_pending (h : Holds a items) : a.pending.Pairwise Slot.Disjoint := by
  have hordered : ((layout 0 items).flatMap Placed.slots).Pairwise Slot.Before := by
    refine List.pairwise_flatMap.mpr ⟨fun p _ => p.pairwise_slots, ?_⟩
    refine (pairwise_layout 0 items).1.imp fun {p q} hpq s hs t ht => ?_
    exact (Placed.bounds_of_mem_slots hs).2.1.trans (hpq.trans (Placed.bounds_of_mem_slots ht).1)
  exact (h.pending_perm.pairwise_iff Or.symm).mpr (hordered.imp .inl)

end

end Assembler

end Provenance
