import Provenance.Analysis
import Provenance.Proofs.Outcome

/-!
# The stages of an analysis

Reporting events has no influence on what an operation returns (`Traced.outcome_bind`,
`Traced.outcome_report`). So an analysis returns what its stages do, one after the other
(`Analysis.ofBytes_eq`, `Analysis.ofBytes_eq_ok_iff`). The last stage fails with the first error
that replaying one of the paths meets (`Simulation.fault?_run`).
-/

namespace Provenance

namespace Traced

variable {α β : Type}

@[simp] theorem outcome_pure (a : α) : (pure a : Traced α).outcome = .ok a := rfl

@[simp] theorem outcome_ofExcept (x : Except Error α) : (ofExcept x).outcome = x := rfl

/-- An operation after another one goes on with its result. -/
@[simp] theorem outcome_bind (t : Traced α) (f : α → Traced β) :
    (t >>= f).outcome = t.outcome >>= fun a => (f a).outcome := by
  show (t.bind f).outcome = _
  unfold bind
  cases t.outcome <;> rfl

/-- Reporting does not change the result. -/
@[simp] theorem outcome_report (t : Traced α) (event : α → Event) :
    (t.report event).outcome = t.outcome := by
  unfold report
  cases t.outcome <;> rfl

/-- Exploring with events finds the same paths. -/
@[simp] theorem outcome_paths (g : Graph) : (paths g).outcome = g.paths := by
  show (ofExcept g.entry >>= _).outcome = _
  rw [outcome_bind]
  simp only [outcome_ofExcept, outcome_report]
  rfl

end Traced

namespace Simulation

/-- The edges of a simulation, unless an error stopped it. -/
def outcome (s : Simulation) : Except Error EdgeSet :=
  match s.fault? with
  | none => .ok s.edges
  | some e => .error e

/-- Reporting does not change the edges. -/
@[simp] theorem outcome_traced (s : Simulation) (paths : Nat) :
    (s.traced paths).outcome = s.outcome := by
  unfold traced outcome
  cases s.fault? <;> rfl

/-- A simulation is stopped by the first error that replaying one of the paths meets. -/
theorem fault?_run (resolver : Resolver) (blocks : Array Block) (edges : EdgeSet)
    (paths : List Path) :
    (run resolver blocks edges paths).fault? =
      paths.findSome? fun p => (Replay.path resolver blocks p).fault? := by
  refine fault?_foldl Simulation.fault? (fun s p _ => ?_) ⟨edges, [], none⟩
  cases hfault : s.fault? with
  | none => simp only [add, hfault, Option.none_or]
  | some e => simp only [add, hfault, Option.some_or]

end Simulation

namespace Analysis

/-- An analysis decodes the body, cuts it into blocks, explores the paths and replays them. -/
theorem ofBytes_eq (bytes : List UInt8) (clauses : List Clause) (resolver : Resolver)
    (settings : Settings) :
    ofBytes bytes clauses resolver settings = do
      let instructions ← Body.decode bytes
      let blocks ← Block.partition instructions bytes.length clauses
      let paths ← (Graph.mk blocks clauses settings).paths
      let edges ← (Simulation.run resolver blocks .empty paths.toList).outcome
      return ⟨instructions, blocks, paths, edges⟩ := by
  unfold ofBytes trace
  split
  · next hempty =>
    cases List.isEmpty_iff.mp hempty
    have hread : Body.decode [] = .ok [] := by cbv
    rw [hread]
    rfl
  · simp only [Traced.outcome_report, Traced.outcome_bind, Traced.outcome_pure, Traced.decode,
      Traced.partition, Traced.outcome_ofExcept, Traced.outcome_paths, Traced.simulate,
      Simulation.outcome_traced]
    rfl

/-- An analysis succeeds exactly if each of its stages does. -/
theorem ofBytes_eq_ok_iff {bytes : List UInt8} {clauses : List Clause} {resolver : Resolver}
    {settings : Settings} {a : Analysis} :
    ofBytes bytes clauses resolver settings = .ok a ↔
      Body.decode bytes = .ok a.instructions ∧
      Block.partition a.instructions bytes.length clauses = .ok a.blocks ∧
      (Graph.mk a.blocks clauses settings).paths = .ok a.paths ∧
      (Simulation.run resolver a.blocks .empty a.paths.toList).outcome = .ok a.edges := by
  simp only [ofBytes_eq, bind_eq_ok_iff]
  constructor
  · rintro ⟨instructions, hread, blocks, hblocks, paths, hpaths, edges, hedges, ha⟩
    cases ha
    exact ⟨hread, hblocks, hpaths, hedges⟩
  · rintro ⟨hread, hblocks, hpaths, hedges⟩
    exact ⟨_, hread, _, hblocks, _, hpaths, _, hedges, rfl⟩

section

variable {bytes : List UInt8} {instructions : List Instruction} {clauses : List Clause}
variable {blocks : Array Block} {resolver : Resolver} {settings : Settings} {paths : PathSet}
variable (hread : Body.decode bytes = .ok instructions)
variable (hblocks : Block.partition instructions bytes.length clauses = .ok blocks)
variable (hpaths : (Graph.mk blocks clauses settings).paths = .ok paths)

include hread hblocks hpaths

/-- After the paths have been found, an analysis is what the simulation makes of them. -/
theorem ofBytes_eq_of_paths :
    ofBytes bytes clauses resolver settings =
      (Simulation.run resolver blocks .empty paths.toList).outcome.map
        (⟨instructions, blocks, paths, ·⟩) := by
  simp only [ofBytes_eq, hread, hblocks, hpaths, bind, Except.bind]
  cases (Simulation.run resolver blocks .empty paths.toList).outcome <;> rfl

/-- After the paths have been found, an analysis succeeds if no error stops the simulation. -/
theorem exists_ofBytes_eq_ok_iff :
    (∃ a, ofBytes bytes clauses resolver settings = .ok a) ↔
      (Simulation.run resolver blocks .empty paths.toList).fault? = none := by
  rw [ofBytes_eq_of_paths hread hblocks hpaths]
  unfold Simulation.outcome
  cases (Simulation.run resolver blocks .empty paths.toList).fault? <;> simp [Except.map]

/-- After the paths have been found, an analysis fails with the error that stops the simulation. -/
theorem ofBytes_eq_error_iff {e : Error} :
    ofBytes bytes clauses resolver settings = .error e ↔
      (Simulation.run resolver blocks .empty paths.toList).fault? = some e := by
  rw [ofBytes_eq_of_paths hread hblocks hpaths]
  unfold Simulation.outcome
  cases (Simulation.run resolver blocks .empty paths.toList).fault? <;> simp [Except.map]

end

end Analysis

end Provenance
