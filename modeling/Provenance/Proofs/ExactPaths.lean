import Provenance.Proofs.Exploration
import Provenance.Proofs.Grammar
import Provenance.Proofs.Repetition

/-!
# The paths of a method

The recorded paths of a method are exactly those that the rules allow and that end in a return, each
of them once (`Graph.paths_exact`). The steps of the exploration are the visits that the rules allow
(`Graph.WellFormed.explore_spec`); of these the set of paths keeps the ones that return, and its
keys tell different paths apart (`PathSet.toList_foldl_insert`).
-/

namespace Provenance

namespace Exploration

/-- The recorded paths are those of the steps that return. -/
theorem foldl_record (steps : List Step) (paths : PathSet) :
    steps.foldl record paths =
      ((steps.filter (·.ending? = some .returned)).map (·.visit.path)).foldl .insert paths := by
  induction steps generalizing paths with
  | nil => rfl
  | cons step steps ih =>
    rw [List.foldl_cons, ih, List.filter_cons, record]
    by_cases h : step.ending? = some .returned
    · simp [h]
    · simp [h]

/-- The paths of an exploration, without repetition. -/
theorem toList_paths (x : Exploration) :
    x.paths.toList =
      ((x.steps.filter (·.ending? = some .returned)).map (·.visit.path)).eraseDups := by
  rw [paths, foldl_record]
  exact (PathSet.toList_foldl_insert _).1

/-- The set of the paths counts what it lists. -/
theorem size_paths (x : Exploration) : x.paths.size = x.paths.toList.length := by
  rw [paths, foldl_record]
  exact PathSet.size_foldl_insert _

end Exploration

namespace Graph

/-- The set of the paths of a method counts what it lists. -/
theorem size_eq_length_of_paths {g : Graph} {paths : PathSet} (h : g.paths = .ok paths) :
    paths.size = paths.toList.length := by
  obtain ⟨entry, -, h⟩ := bind_eq_ok_iff.mp h
  unfold Exploration.outcome at h
  split at h
  · cases h
    exact Exploration.size_paths _
  · cases h

/-- In a well-formed graph the recorded paths are those of the visits that the rules allow and that
return. -/
theorem WellFormed.paths_spec {g : Graph} (hg : g.WellFormed) :
    ∃ paths, g.paths = .ok paths ∧ paths.toList.Nodup ∧
      ∀ p, p ∈ paths.toList ↔
        ∃ v, g.Admissible v ∧ v.block.last.flow = .returns ∧ v.path = p := by
  obtain ⟨b, hentry, hb⟩ := hg.entry_eq
  obtain ⟨hfault, hsteps⟩ := hg.explore_spec hb
  have hpaths : g.paths = .ok (g.explore b).paths := by
    rw [Graph.paths, hentry]
    simp only [bind, Except.bind, Exploration.outcome, hfault]
  refine ⟨_, hpaths, ?_, fun p => ?_⟩
  · rw [Exploration.toList_paths]
    exact nodup_eraseDups _
  · simp only [Exploration.toList_paths, List.mem_eraseDups, List.mem_map, List.mem_filter,
      hsteps, decide_eq_true_eq]
    constructor
    · rintro ⟨_, ⟨⟨v, hv, rfl⟩, hreturned⟩, rfl⟩
      exact ⟨v, hv, (hg.step_ending?_eq hv.mem_blocks).mp hreturned, by rw [step_visit]⟩
    · rintro ⟨v, hv, hreturns, rfl⟩
      exact ⟨_, ⟨⟨v, hv, rfl⟩, (hg.step_ending?_eq hv.mem_blocks).mpr hreturns⟩,
        by rw [step_visit]⟩

end Graph

end Provenance
