import Provenance.Proofs.Courses
import Provenance.Proofs.Repetition
import Provenance.Proofs.Simulation
import Provenance.Proofs.UnknownCallee

/-!
# Raising the revisit limit

A higher revisit limit only adds paths, and only adds edges (`Analysis.revisitLimit_mono`). Two
explorations with different limits part early and meet blocks at different times, but level by level
the one with the lower limit makes the visits of the other that its limit allows, in the same order
(`Graph.WellFormed.level_withLimit`). Which visits these are can be read off what they have
recorded, since that determines the course (`Graph.Taken`), so leaving them out and dropping
repetitions can be done in either order.
-/

namespace Provenance

namespace Graph

/-- The graph with another revisit limit. -/
def withLimit (g : Graph) (k : Nat) : Graph :=
  { g with settings := { g.settings with revisitLimit := k } }

/-- Some course from the entry has recorded this. -/
def Taken (g : Graph) (entry : Block) (trail : List Nat) : Prop :=
  ∃ v earlier, g.Course entry (v :: earlier) ∧ v.trail = trail

section

variable {g : Graph} {k : Nat} {entry : Block} (hk : k ≤ g.settings.revisitLimit)

include hk

/-- With a lower limit a path enters a block if it may with the higher one and has not recorded the
block too often. -/
theorem enterAt?_withLimit (trail : List Nat) (t : Nat) :
    (g.withLimit k).enterAt? trail t =
      (g.enterAt? trail t).filter fun w => w.trail.tail.count w.block.start ≤ k := by
  show (Block.find? g.blocks t).bind _ = ((Block.find? g.blocks t).bind _).filter _
  cases Block.find? g.blocks t with
  | none => rfl
  | some b =>
    rw [Option.bind_some, Option.bind_some]
    unfold enter? admits
    by_cases hcount : trail.count b.start ≤ k
    · have hcount' := Nat.le_trans hcount hk
      simp [withLimit, hcount, hcount', Option.filter]
    · by_cases hcount' : trail.count b.start ≤ g.settings.revisitLimit
      · simp [withLimit, hcount, hcount', Option.filter]
      · simp [withLimit, hcount, hcount', Option.filter]

namespace WellFormed

omit hk in
/-- Whether a graph is well formed does not depend on the limit. -/
theorem withLimit (hg : g.WellFormed) (k : Nat) : (g.withLimit k).WellFormed :=
  ⟨hg.find, hg.target, hg.entry⟩

variable (hg : g.WellFormed)

include hg

/-- What is found next with a lower limit is part of what is found next with the higher one. -/
theorem next_withLimit {v : Visit} (hv : v.block ∈ g.blocks) :
    (g.withLimit k).next v =
      (g.next v).filter fun w => w.trail.tail.count w.block.start ≤ k := by
  rw [(hg.withLimit k).next_eq hv, hg.next_eq hv, List.filter_filterMap]
  exact List.filterMap_congr fun t _ => enterAt?_withLimit hk _ t

variable (hmem : entry ∈ g.blocks)

include hmem

/-- A course with a lower limit is a course with the higher one. -/
theorem course_of_withLimit {visits : List Visit} (h : (g.withLimit k).Course entry visits) :
    g.Course entry visits := by
  induction h with
  | start => exact .start
  | @next v w earlier _ hnext ih =>
    rw [hg.next_withLimit hk (ih.mem_blocks hmem v (List.mem_cons_self ..))] at hnext
    exact .next ih (List.mem_of_mem_filter hnext)

/-- Whether a course is one with the lower limit can be read off what it has recorded. -/
theorem taken_withLimit_iff {v : Visit} {earlier : List Visit}
    (h : g.Course entry (v :: earlier)) :
    (g.withLimit k).Taken entry v.trail ↔ (g.withLimit k).Course entry (v :: earlier) := by
  refine ⟨fun ⟨w, others, hcourse, htrail⟩ => ?_, fun hcourse => ⟨v, earlier, hcourse, rfl⟩⟩
  have heq := (hg.course_of_withLimit hk hmem hcourse).eq_of_trail_eq hg h htrail
  rwa [heq] at hcourse

/-- A course goes on with the lower limit exactly if it is a course with that limit and what it goes
on to is found with it. -/
theorem taken_withLimit_next_iff {v w : Visit} {earlier : List Visit}
    (h : g.Course entry (v :: earlier)) (hw : w ∈ g.next v) :
    (g.withLimit k).Taken entry w.trail ↔
      (g.withLimit k).Taken entry v.trail ∧ w ∈ (g.withLimit k).next v := by
  rw [hg.taken_withLimit_iff hk hmem (.next h hw), hg.taken_withLimit_iff hk hmem h]
  refine ⟨fun hcourse => ?_, fun ⟨hcourse, hnext⟩ => .next hcourse hnext⟩
  cases hcourse with
  | next hcourse hnext => exact ⟨hcourse, hnext⟩

open Classical in
/-- Level by level, the visits with a lower limit are those with the higher one that have recorded
what the lower limit allows, in the same order. -/
theorem level_withLimit (n : Nat) :
    (g.withLimit k).level [⟨entry, [entry.start]⟩] n =
      (g.level [⟨entry, [entry.start]⟩] n).filter
        fun v => (g.withLimit k).Taken entry v.trail := by
  induction n with
  | zero =>
    refine (List.filter_eq_self.mpr fun v hv => ?_).symm
    cases List.mem_singleton.mp hv
    exact decide_eq_true ⟨_, [], .start, rfl⟩
  | succ n ih =>
    rw [level_succ, level_succ, ih, List.filter_flatMap]
    refine flatMap_filter_eq (fun v hv htaken => ?_) (fun v hv htaken => ?_)
    · obtain ⟨earlier, hcourse, -⟩ := exists_course_of_mem_level hv
      have hnext := hg.next_withLimit hk (hcourse.mem_blocks hmem v (List.mem_cons_self ..))
      rw [hnext]
      refine List.filter_congr fun w hw => decide_eq_decide.mpr ?_
      rw [hg.taken_withLimit_next_iff hk hmem hcourse hw, hnext, List.mem_filter,
        and_iff_right (of_decide_eq_true htaken), and_iff_right hw, decide_eq_true_eq]
    · obtain ⟨earlier, hcourse, -⟩ := exists_course_of_mem_level hv
      refine List.filter_eq_nil_iff.mpr fun w hw htaken' => htaken (decide_eq_true ?_)
      exact ((hg.taken_withLimit_next_iff hk hmem hcourse hw).mp (of_decide_eq_true htaken')).1

omit hmem in
/-- The paths with a lower limit are found with the higher one too, in the same order. -/
theorem sublist_paths : ∃ fewer paths, (g.withLimit k).paths = .ok fewer ∧ g.paths = .ok paths ∧
    fewer.toList.Sublist paths.toList := by
  classical
  obtain ⟨entry, hentry, hunique⟩ := hg.entry_eq
  have hmem := (hunique.mpr rfl).1
  have hdepth : (g.withLimit k).depth ≤ g.depth :=
    Nat.mul_le_mul_right _ (Nat.succ_le_succ hk)
  obtain ⟨paths, hpaths, hlist⟩ := hg.exists_paths_eq hentry (Nat.le_refl _)
  obtain ⟨fewer, hfewer, hlist'⟩ := (hg.withLimit k).exists_paths_eq hentry hdepth
  refine ⟨fewer, paths, hfewer, hpaths, ?_⟩
  have hvisits : (g.withLimit k).visitsWithin entry g.depth =
      (g.visitsWithin entry g.depth).filter fun v => (g.withLimit k).Taken entry v.trail := by
    rw [visitsWithin, visitsWithin, List.filter_flatMap]
    exact List.flatMap_congr fun n _ => hg.level_withLimit hk hmem n
  -- A path has recorded what its visit has, so the paths to keep can be told from the paths alone.
  have hpath : ∀ v : Visit, (g.withLimit k).Taken entry v.path.starts.reverse ↔
      (g.withLimit k).Taken entry v.trail := by
    intro v
    rw [Visit.path, List.reverse_reverse]
  have hfilter : fewer.toList =
      paths.toList.filter fun p => (g.withLimit k).Taken entry p.starts.reverse := by
    rw [hlist', hlist, hvisits, ← eraseDups_filter, List.filter_map, List.filter_filter,
      List.filter_filter]
    simp only [Function.comp_def, hpath, Bool.and_comm]
  rw [hfilter]
  exact List.filter_sublist

end WellFormed

end

/-- Over the blocks of any instructions that were read, the paths with a lower limit are found with
a higher one too, in the same order. -/
theorem sublist_paths_of_partition {k m : Nat} (hk : k ≤ m) (modelFinally : Bool)
    {instructions : List Instruction} {length : Nat} {clauses : List Clause}
    {blocks : Array Block} (hread : ∀ i ∈ instructions, i.Decoded)
    (hblocks : Block.partition instructions length clauses = .ok blocks)
    (regions : List Clause) :
    ∃ fewer paths, (Graph.mk blocks regions ⟨k, modelFinally⟩).paths = .ok fewer ∧
      (Graph.mk blocks regions ⟨m, modelFinally⟩).paths = .ok paths ∧
      fewer.toList.Sublist paths.toList :=
  have hg := wellFormed_of_partition (fun i hi => (hread i hi).size_pos) hblocks regions
    ⟨m, modelFinally⟩
  hg.sublist_paths hk

end Graph

namespace Analysis

/-- Raising the revisit limit only adds. Over the blocks of any instructions that were read, with
any clauses, the paths that are found with a lower limit are among those that are found with a
higher one, in the same order. In an analysis that succeeds with both limits, every edge that is
recorded with the lower one is recorded with the higher one. -/
theorem revisitLimit_mono {k m : Nat} (hk : k ≤ m) (modelFinally : Bool) :
    (∀ {instructions : List Instruction} {length : Nat} {clauses : List Clause}
        {blocks : Array Block}, (∀ i ∈ instructions, i.Decoded) →
      Block.partition instructions length clauses = .ok blocks → ∀ regions : List Clause,
        ∃ fewer paths, (Graph.mk blocks regions ⟨k, modelFinally⟩).paths = .ok fewer ∧
          (Graph.mk blocks regions ⟨m, modelFinally⟩).paths = .ok paths ∧
          fewer.toList.Sublist paths.toList) ∧
      ∀ (bytes : List UInt8) (clauses : List Clause) (resolver : Resolver) (a a' : Analysis),
        ofBytes bytes clauses resolver ⟨k, modelFinally⟩ = .ok a →
        ofBytes bytes clauses resolver ⟨m, modelFinally⟩ = .ok a' →
          ∀ e ∈ a.edges.toList, e ∈ a'.edges.toList := by
  refine ⟨Graph.sublist_paths_of_partition hk modelFinally, ?_⟩
  intro bytes clauses resolver a a' h h' e he
  obtain ⟨hread, hblocks, hpaths, hedges⟩ := ofBytes_eq_ok_iff.mp h
  obtain ⟨hread', hblocks', hpaths', hedges'⟩ := ofBytes_eq_ok_iff.mp h'
  rw [← Except.ok.inj (hread.symm.trans hread')] at hblocks'
  rw [← Except.ok.inj (hblocks.symm.trans hblocks')] at hpaths' hedges'
  obtain ⟨fewer, paths, hfewer, hmore, hsub⟩ := Graph.sublist_paths_of_partition hk modelFinally
    (fun i hi => Body.decoded_of_mem hread hi) hblocks clauses
  cases hpaths.symm.trans hfewer
  cases hpaths'.symm.trans hmore
  obtain ⟨p, hp, hrecorded⟩ := (Simulation.mem_toList_iff_of_outcome hedges).mp he
  exact (Simulation.mem_toList_iff_of_outcome hedges').mpr ⟨p, hsub.subset hp, hrecorded⟩

/-- A loop that tests an argument, without coming back to it and with coming back once. -/
theorem revisitLimit_mono_loop :
    ∃ is blocks, Body.decode Body.loop = .ok is ∧
      Block.partition is 4 [] = .ok blocks ∧
      (∃ fewer paths, (Graph.mk blocks [] ⟨0, true⟩).paths = .ok fewer ∧
        (Graph.mk blocks [] ⟨1, true⟩).paths = .ok paths ∧ fewer.toList.Sublist paths.toList) ∧
      ∃ a a', ofBytes Body.loop [] .unknown ⟨0, true⟩ = .ok a ∧
        ofBytes Body.loop [] .unknown ⟨1, true⟩ = .ok a' ∧
        ∀ e ∈ a.edges.toList, e ∈ a'.edges.toList := by
  have hok : ((Body.decode Body.loop).bind fun is =>
      (Block.partition is 4 []).bind fun _ => .ok (is.map Instruction.name)) =
      .ok ["ldarg.0", "brtrue.s", "ret"] := by cbv
  obtain ⟨is, hread, hok⟩ := bind_eq_ok_iff.mp hok
  obtain ⟨blocks, hblocks, hnames⟩ := bind_eq_ok_iff.mp hok
  have hcalls : ∀ i ∈ is, i.name ∉ OpCode.callNames := by
    intro i hi
    have hname : i.name ∈ is.map Instruction.name := List.mem_map_of_mem hi
    rw [Except.ok.inj hnames] at hname
    exact (by decide : ∀ n ∈ ["ldarg.0", "brtrue.s", "ret"], n ∉ OpCode.callNames) _ hname
  obtain ⟨a, ha⟩ := exists_ofBytes_eq_ok_of_forall_notMem hread hblocks hcalls .unknown ⟨0, true⟩
  obtain ⟨a', ha'⟩ := exists_ofBytes_eq_ok_of_forall_notMem hread hblocks hcalls .unknown ⟨1, true⟩
  obtain ⟨hpaths, hedges⟩ := revisitLimit_mono (Nat.zero_le 1) true
  exact ⟨is, blocks, hread, hblocks,
    hpaths (fun i hi => Body.decoded_of_mem hread hi) hblocks [], a, a', ha, ha',
    hedges _ _ _ _ _ ha ha'⟩

end Analysis

end Provenance
