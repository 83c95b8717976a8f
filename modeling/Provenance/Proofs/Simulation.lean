import Mathlib.Data.List.Basic
import Provenance.Proofs.Edges
import Provenance.Proofs.Stages

/-!
# What a simulation finds

The replay of a path records edges one after the other (`Replay.records`). A simulation succeeds
exactly if each of its replays does, and what it has then found are the edges that they recorded, in
a row (`Simulation.outcome_run_eq_ok_iff`). As a set, these are the edges that the paths yield one
by one (`Simulation.mem_toList_iff_of_outcome`, `Simulation.mem_toList_iff_exists_alone`).
-/

namespace Provenance

/-- The edges that replaying a path records, in the order in which it finds them. -/
def Replay.records (resolver : Resolver) (blocks : Array Block) (p : Path) : List Edge :=
  (path resolver blocks p).edges.reverse

namespace Simulation

variable {resolver : Resolver} {blocks : Array Block} {before edges : EdgeSet} {paths : List Path}

/-- A simulation that no error stops adds what its replays record. -/
theorem edges_run (h : ∀ p ∈ paths, (Replay.path resolver blocks p).fault? = none)
    (s : Simulation) (hs : s.fault? = none) :
    (paths.foldl (add resolver blocks) s).edges =
      s.edges.insertAll (paths.flatMap (Replay.records resolver blocks)) := by
  induction paths generalizing s with
  | nil => rfl
  | cons p rest ih =>
    obtain ⟨hp, hrest⟩ := List.forall_mem_cons.mp h
    have hadd : (s.add resolver blocks p).edges =
        s.edges.insertAll (Replay.records resolver blocks p) := by
      simp only [add, hs, Replay.records]
    have hfault : (s.add resolver blocks p).fault? = none := by
      simp only [add, hs, hp]
    rw [List.foldl_cons, ih hrest _ hfault, hadd, List.flatMap_cons, EdgeSet.insertAll_append]

/-- A simulation succeeds exactly if every replay does, and has then found what they recorded. -/
theorem outcome_run_eq_ok_iff :
    (run resolver blocks before paths).outcome = .ok edges ↔
      (∀ p ∈ paths, (Replay.path resolver blocks p).fault? = none) ∧
        edges = before.insertAll (paths.flatMap (Replay.records resolver blocks)) := by
  have hfault : (run resolver blocks before paths).fault? = none ↔
      ∀ p ∈ paths, (Replay.path resolver blocks p).fault? = none := by
    rw [fault?_run, List.findSome?_eq_none_iff]
  unfold outcome
  constructor
  · intro h
    split at h
    · next hnone =>
      have hreplays := hfault.mp hnone
      refine ⟨hreplays, ?_⟩
      rw [← edges_run hreplays { edges := before } rfl]
      exact (Except.ok.inj h).symm
    · cases h
  · rintro ⟨hreplays, rfl⟩
    rw [hfault.mpr hreplays, run, edges_run hreplays _ rfl]

/-- A simulation that succeeds has found the edges that its paths yield one by one. -/
theorem mem_toList_iff_of_outcome (h : (run resolver blocks .empty paths).outcome = .ok edges)
    {e : Edge} : e ∈ edges.toList ↔ ∃ p ∈ paths, e ∈ (Replay.path resolver blocks p).edges := by
  obtain ⟨-, rfl⟩ := outcome_run_eq_ok_iff.mp h
  rw [EdgeSet.mem_toList_insertAll, or_iff_right (EdgeSet.notMem_toList_empty e), List.mem_flatMap]
  simp only [Replay.records, List.mem_reverse]

/-- If every replay succeeds, so does the simulation. -/
theorem outcome_run_of_replays
    (h : ∀ p ∈ paths, (Replay.path resolver blocks p).fault? = none) :
    (run resolver blocks .empty paths).outcome =
      .ok (EdgeSet.empty.insertAll (paths.flatMap (Replay.records resolver blocks))) :=
  outcome_run_eq_ok_iff.mpr ⟨h, rfl⟩

/-- A simulation that succeeds has found the union of what simulations of its single paths find. -/
theorem mem_toList_iff_exists_alone (h : (run resolver blocks .empty paths).outcome = .ok edges)
    {e : Edge} :
    e ∈ edges.toList ↔ ∃ p ∈ paths, ∃ alone,
      (run resolver blocks .empty [p]).outcome = .ok alone ∧ e ∈ alone.toList := by
  have hreplays := (outcome_run_eq_ok_iff.mp h).1
  rw [mem_toList_iff_of_outcome h]
  refine exists_congr fun p => and_congr_right fun hp => ?_
  have halone : (run resolver blocks .empty [p]).outcome = .ok _ :=
    outcome_run_of_replays (List.forall_mem_singleton.mpr (hreplays p hp))
  refine ⟨fun he => ⟨_, halone, ?_⟩, ?_⟩
  · exact (mem_toList_iff_of_outcome halone).mpr ⟨p, List.mem_singleton_self p, he⟩
  · rintro ⟨alone, halone, he⟩
    obtain ⟨q, hq, he⟩ := (mem_toList_iff_of_outcome halone).mp he
    cases List.mem_singleton.mp hq
    exact he

end Simulation

end Provenance
