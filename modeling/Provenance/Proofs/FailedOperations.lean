import Provenance.Proofs.Emission

/-!
# Operations that fail

An operation that fails leaves the assembler as it was (`Assembler.Operation.eq_of_error`). So in a
sequence of operations, those that fail could as well be left out: the others have the same results
and leave the same assembler after each of them (`Assembler.attempts_succeeding`), and what comes
out at the end is the same (`Assembler.run_succeeding`).
-/

namespace Provenance.Assembler

/-- An operation that fails leaves the assembler as it was. -/
theorem Operation.eq_of_error {op : Operation} {a b : Assembler} {e : Error}
    (h : op.perform a = .error e b) : b = a := by
  have houtcome := op.outcome_perform a
  rw [h] at houtcome
  generalize op.emission? = emission? at houtcome
  cases houtcome
  rfl

/-- An operation that was performed, its result, and the assembler after it. -/
structure Attempt where
  operation : Operation
  result : Except Error Unit
  after : Assembler

/-- Whether an operation succeeded. -/
def Attempt.succeeded (t : Attempt) : Bool :=
  t.result.isOk

/-- Performs operations one after the other, whether they fail or not. -/
def attempts : List Operation → Assembler → List Attempt
  | [], _ => []
  | op :: rest, a =>
    match op.perform a with
    | .ok _ b => ⟨op, .ok (), b⟩ :: attempts rest b
    | .error e b => ⟨op, .error e, b⟩ :: attempts rest b

/-- The operations that succeed when all of them are performed. -/
def succeeding (ops : List Operation) (a : Assembler) : List Operation :=
  ((attempts ops a).filter Attempt.succeeded).map Attempt.operation

section

variable {op : Operation} {a b : Assembler} {e : Error} (rest : List Operation)

/-- After an operation that succeeds the others go on with what it left. -/
theorem attempts_cons_of_ok (h : op.perform a = .ok () b) :
    attempts (op :: rest) a = ⟨op, .ok (), b⟩ :: attempts rest b := by
  simp only [attempts, h]

/-- After an operation that fails the others go on as if it had not been there. -/
theorem attempts_cons_of_error (h : op.perform a = .error e b) :
    attempts (op :: rest) a = ⟨op, .error e, a⟩ :: attempts rest a := by
  cases Operation.eq_of_error h
  simp only [attempts, h]

/-- An operation that succeeds is kept. -/
theorem succeeding_cons_of_ok (h : op.perform a = .ok () b) :
    succeeding (op :: rest) a = op :: succeeding rest b := by
  rw [succeeding, attempts_cons_of_ok rest h]
  rfl

/-- An operation that fails is left out. -/
theorem succeeding_cons_of_error (h : op.perform a = .error e b) :
    succeeding (op :: rest) a = succeeding rest a := by
  rw [succeeding, attempts_cons_of_error rest h]
  rfl

end

/-- Without the operations that fail, the others have the same results and leave the same
assemblers. -/
theorem attempts_succeeding (ops : List Operation) (a : Assembler) :
    attempts (succeeding ops a) a = (attempts ops a).filter Attempt.succeeded := by
  induction ops generalizing a with
  | nil => rfl
  | cons op rest ih =>
    cases hperform : op.perform a with
    | ok _ b =>
      rw [succeeding_cons_of_ok rest hperform, attempts_cons_of_ok _ hperform, ih,
        attempts_cons_of_ok rest hperform]
      rfl
    | error e b =>
      rw [succeeding_cons_of_error rest hperform, ih, attempts_cons_of_error rest hperform]
      rfl

/-- Without the operations that fail, the assembler at the end and what was emitted are the same. -/
theorem run_succeeding (ops : List Operation) (a : Assembler) :
    run (succeeding ops a) a = run ops a := by
  induction ops generalizing a with
  | nil => rfl
  | cons op rest ih =>
    cases hperform : op.perform a with
    | ok _ b =>
      rw [succeeding_cons_of_ok rest hperform]
      simp only [run, hperform, ih]
    | error e b =>
      cases Operation.eq_of_error hperform
      rw [succeeding_cons_of_error rest hperform, ih]
      simp only [run, hperform]

/-- Operations that fail leave no trace. What has been written, the labels and what is to be filled
in are as before; and leaving out the operations of a sequence that fail changes neither the results
of the others nor the assembler after each of them, and at the end neither the position, nor the
offset of any label, nor what finishing gives. -/
theorem failures_leave_no_trace :
    (∀ (op : Operation) (a b : Assembler) (e : Error), op.perform a = .error e b →
      b.code = a.code ∧ b.labels = a.labels ∧ b.fixups = a.fixups ∧ b.tables = a.tables) ∧
    ∀ (ops : List Operation) (a : Assembler),
      attempts (succeeding ops a) a = (attempts ops a).filter Attempt.succeeded ∧
      (run (succeeding ops a) a).1.position = (run ops a).1.position ∧
      (∀ name, (run (succeeding ops a) a).1.offset? name = (run ops a).1.offset? name) ∧
      (run (succeeding ops a) a).1.finish = (run ops a).1.finish := by
  refine ⟨fun op a b e h => ?_, fun ops a => ⟨attempts_succeeding ops a, ?_⟩⟩
  · cases Operation.eq_of_error h
    exact ⟨rfl, rfl, rfl, rfl⟩
  · rw [run_succeeding]
    exact ⟨rfl, fun _ => rfl, rfl⟩

/-- Operations that fail between others that do not: there is no such mnemonic, an operand is
missing, an index is too wide, an addition is no branch, a switch has no cases, and a label is
already there. -/
def faultyOperations : List Operation :=
  [.define "top", .emitLoad 300, .emit "bogus" none, .emit "ldc.i4" none,
    .emit "ldloc.s" (some (.var 300)), .emitBranch "br.s" "top", .emitBranch "add" "top",
    .emitSwitch [], .define "top", .emit "ret" none]

/-- Defining a label again changes nothing, and without the operations that fail the same body is
finished. -/
theorem failures_leave_no_trace_faulty :
    ∃ a b, (run [.define "top", .emitLoad 300] empty).1 = a ∧
      (Operation.define "top").perform a = .error (.duplicateLabel "top") b ∧
      (b.code = a.code ∧ b.labels = a.labels ∧ b.fixups = a.fixups ∧ b.tables = a.tables) ∧
      succeeding faultyOperations empty =
        [.define "top", .emitLoad 300, .emitBranch "br.s" "top", .emit "ret" none] ∧
      (run (succeeding faultyOperations empty) empty).1.finish =
        .ok [0xFE, 0x0C, 0x2C, 0x01, 0x2B, 0xFA, 0x2A] := by
  refine ⟨_, _, rfl, rfl, failures_leave_no_trace.1 (.define "top") _ _ (.duplicateLabel "top") rfl,
    rfl, ?_⟩
  rw [(failures_leave_no_trace.2 faultyOperations empty).2.2.2]
  rfl

end Provenance.Assembler
