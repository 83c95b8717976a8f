import Provenance.Proofs.ExactPaths
import Provenance.Proofs.Successors

/-!
# Courses and the order of discovery

In a well-formed graph an exploration finds the successors of a block in a fixed order, those that
the path may enter (`Graph.exits`, `Graph.WellFormed.next_eq`). A path determines the course of
visits that made it: if what one course has recorded is the beginning of what another one has, the
course is the beginning of the other (`Graph.Course.suffix_of_trail_suffix`).
-/

namespace Provenance

namespace Graph

/-! ## The order of the successors -/

/-- The offsets at which control goes on after a block, in the order in which they are tried. -/
def exits (g : Graph) (b : Block) : List Nat :=
  match b.last.flow with
  | .unconditionalBranch => b.last.branchTarget?.toList
  | .conditionalBranch => b.last.targets.eraseDups ++ [b.last.next]
  | .returns => []
  | .throws => if g.catches b.last.offset then [b.last.next] else []
  | _ => [b.last.next]

/-- The visit that enters the block at an offset, if there is one and the path may. -/
def enterAt? (g : Graph) (trail : List Nat) (t : Nat) : Option Visit :=
  (Block.find? g.blocks t).bind (g.enter? trail)

namespace WellFormed

variable {g : Graph} {trail : List Nat}

/-- A branch to a block enters it, if the path may. -/
theorem branch_eq (hg : g.WellFormed) (source : Instruction) {t : Nat}
    (ht : ∃ b ∈ g.blocks, b.start = t) :
    g.branch trail source t = .ok (g.enterAt? trail t) := by
  obtain ⟨b, hb, rfl⟩ := ht
  simp only [branch, enterAt?, hg.find.mpr ⟨hb, rfl⟩, Option.bind_some]

/-- Falling through enters what follows, if there is a block and the path may. -/
theorem fallThrough_next (hg : g.WellFormed) (source : Instruction) :
    (g.fallThrough trail source).next = (g.enterAt? trail source.next).toList := by
  unfold fallThrough enterAt?
  cases hfind : Block.find? g.blocks source.next with
  | none =>
    rw [Option.bind_none]
    split <;> rfl
  | some b =>
    rw [Option.bind_some, enter?, ← (hg.find.mp hfind).2]
    split <;> rfl

/-- What is found next are the successors of the block that the path may enter, in their order. -/
theorem next_eq (hg : g.WellFormed) {v : Visit} (hv : v.block ∈ g.blocks) :
    g.next v = (g.exits v.block).filterMap (g.enterAt? (g.handlersAfter v ++ v.trail)) := by
  cases flow : v.block.last.flow with
  | unconditionalBranch =>
    cases target : v.block.last.branchTarget? with
    | none => simp only [next, expand, exits, flow, target, Option.toList_none, List.filterMap_nil]
    | some t =>
      have ht : t ∈ v.block.last.targets := Instruction.mem_targets_iff.mpr (.inl target)
      simp only [next, expand, exits, handlersAfter, flow, target, hg.branch_eq _ (hg.target hv ht)]
      exact (List.filterMap_eq_flatMap_toList ..).symm ▸ (List.flatMap_singleton ..).symm
  | conditionalBranch =>
    have htaken : v.block.last.targets.eraseDups.mapM (g.branch v.trail v.block.last) =
        .ok (v.block.last.targets.eraseDups.map (g.enterAt? v.trail)) := by
      refine mapM_eq_ok_iff.mpr (List.forall₂_map_right_iff.mpr (List.forall₂_same.mpr ?_))
      intro t ht
      exact hg.branch_eq _ (hg.target hv (List.mem_eraseDups.mp ht))
    rw [handlersAfter_of_flow_ne (by simp [flow])]
    simp only [next, expand, exits, flow, htaken, bind, Except.bind, pure, Except.pure,
      hg.fallThrough_next]
    simp [List.filterMap_eq_flatMap_toList, List.flatMap_map]
  | returns => simp only [next, expand, exits, flow, List.filterMap_nil]
  | throws =>
    rw [handlersAfter_of_flow_ne (by simp [flow])]
    by_cases hcatches : g.catches v.block.last.offset
    · simp [next, expand, exits, flow, hcatches, hg.fallThrough_next,
        List.filterMap_eq_flatMap_toList]
    · simp [next, expand, exits, flow, hcatches]
  | sequential | call | breakpoint | modifier =>
    rw [handlersAfter_of_flow_ne (by simp [flow])]
    simp [next, expand, exits, flow, hg.fallThrough_next, List.filterMap_eq_flatMap_toList]

end WellFormed

/-! ## A path determines its course -/

namespace Course

variable {g : Graph} {entry : Block} {v w : Visit} {earlier others : List Visit}

/-- A visit of a course and the ones before it are a course. -/
theorem of_append {later : List Visit} (h : g.Course entry (later ++ v :: earlier)) :
    g.Course entry (v :: earlier) := by
  induction later with
  | nil => exact h
  | cons u later ih =>
    refine ih ?_
    cases later with
    | nil =>
      cases h with
      | next hu _ => exact hu
    | cons u' later =>
      cases h with
      | next hu _ => exact hu

/-- A course has the visit of the entry at its end. -/
theorem start_suffix {visits : List Visit} (h : g.Course entry visits) :
    [⟨entry, [entry.start]⟩] <:+ visits := by
  induction h with
  | start => exact List.suffix_refl _
  | next _ _ ih => exact ih.trans (List.suffix_cons ..)

/-- What a path had recorded earlier stays recorded. -/
theorem trail_suffix (h : g.Course entry (v :: earlier)) :
    ∀ u ∈ v :: earlier, u.trail <:+ v.trail := by
  induction earlier generalizing v with
  | nil =>
    intro u hu
    cases List.mem_singleton.mp hu
    exact List.suffix_refl _
  | cons v' earlier ih =>
    intro u hu
    rcases List.mem_cons.mp hu with rfl | hu
    · exact List.suffix_refl _
    · cases h with
      | next hcourse hnext =>
        rw [(Extends.of_mem_next hnext).enters.trail_eq]
        exact (ih hcourse u hu).trans ((List.suffix_append ..).trans (List.suffix_cons ..))

/-- A course is the beginning of every course that has recorded what it has and more. -/
theorem suffix_of_trail_suffix (hg : g.WellFormed) (h : g.Course entry (v :: earlier))
    (h' : g.Course entry (w :: others)) (hs : v.trail <:+ w.trail) :
    (v :: earlier) <:+ (w :: others) := by
  induction earlier generalizing v with
  | nil =>
    cases h
    exact h'.start_suffix
  | cons u earlier ih =>
    have htrails := h.trail_suffix u (by simp)
    cases h with
    | next hu hnext =>
    have henters := (Extends.of_mem_next hnext).enters
    obtain ⟨later, hlater⟩ := ih hu (htrails.trans hs)
    rcases List.eq_nil_or_concat later with rfl | ⟨later, w', rfl⟩
    · -- The other course has not gone on after `u`, so it has not recorded enough.
      cases hlater
      have hlength := hs.length_le
      rw [henters.trail_eq, List.length_cons, List.length_append] at hlength
      omega
    · rw [List.concat_eq_append, List.append_assoc, List.singleton_append] at hlater
      have hs' : w'.trail <:+ w.trail := h'.trail_suffix w' (by simp [← hlater])
      rw [← hlater] at h' ⊢
      cases h'.of_append with
      | next _ hnext' =>
      -- After `u` both have gone on to the same block, since they have recorded the same.
      have henters' := (Extends.of_mem_next hnext').enters
      have hlength : v.trail.length = w'.trail.length := by
        rw [henters.trail_eq, henters'.trail_eq, List.length_cons, List.length_cons]
      have htrail : v.trail = w'.trail :=
        (List.suffix_of_suffix_length_le hs hs' hlength.le).eq_of_length hlength
      have hstart : v.block.start = w'.block.start := by
        rw [henters.trail_eq, henters'.trail_eq] at htrail
        exact (List.cons.inj htrail).1
      have hblock := hg.eq_of_start_eq henters.mem henters'.mem hstart
      obtain ⟨block, trail⟩ := v
      obtain ⟨block', trail'⟩ := w'
      cases hblock
      cases htrail
      exact List.suffix_append ..

/-- A course goes from each block to a successor of it. -/
theorem isChain_leads {visits : List Visit} (h : g.Course entry visits) :
    (visits.map (·.block)).IsChain fun b a => g.Leads a b := by
  induction h with
  | start => exact .singleton _
  | next _ hnext ih => exact .cons_cons (extends_iff.mp (Extends.of_mem_next hnext)).1 ih

/-- The blocks of a course, the entry first, are a walk. -/
theorem exists_walk {visits : List Visit} (h : g.Course entry visits) :
    ∃ walk, (visits.map (·.block)).reverse = entry :: walk ∧ (entry :: walk).IsChain g.Leads := by
  obtain ⟨later, hlater⟩ := h.start_suffix
  have hwalk : (visits.map (·.block)).reverse = entry :: (later.map (·.block)).reverse := by
    rw [← hlater, List.map_append, List.reverse_append]
    rfl
  exact ⟨_, hwalk, hwalk ▸ List.isChain_reverse.mpr h.isChain_leads⟩

/-- Courses that have recorded the same are the same. -/
theorem eq_of_trail_eq (hg : g.WellFormed) (h : g.Course entry (v :: earlier))
    (h' : g.Course entry (w :: others)) (htrail : v.trail = w.trail) :
    v :: earlier = w :: others := by
  have hle := h.suffix_of_trail_suffix hg h' (htrail ▸ List.suffix_refl _)
  have hge := h'.suffix_of_trail_suffix hg h (htrail ▸ List.suffix_refl _)
  exact hle.eq_of_length (Nat.le_antisymm hle.length_le hge.length_le)

end Course

/-- Every visit that the rules allow is the latest of a course from the entry. -/
theorem WellFormed.exists_course {g : Graph} (hg : g.WellFormed) {entry : Block}
    (hentry : ∀ {b : Block}, (b ∈ g.blocks ∧ b.isEntry) ↔ b = entry) {v : Visit}
    (h : g.Admissible v) : ∃ earlier, g.Course entry (v :: earlier) := by
  obtain ⟨n, hn⟩ := hg.exists_mem_level hentry h
  obtain ⟨earlier, hcourse, -⟩ := exists_course_of_mem_level hn
  exact ⟨earlier, hcourse⟩

/-- A recorded path is that of a course from the entry to a return. -/
theorem WellFormed.exists_course_of_mem_paths {g : Graph} (hg : g.WellFormed) {entry : Block}
    (hentry : ∀ {b : Block}, (b ∈ g.blocks ∧ b.isEntry) ↔ b = entry) {paths : PathSet}
    (hpaths : g.paths = .ok paths) {p : Path} (hp : p ∈ paths.toList) :
    ∃ v earlier, g.Course entry (v :: earlier) ∧ v.block.last.flow = .returns ∧ v.path = p := by
  obtain ⟨found, hfound, -, hrecorded⟩ := hg.paths_spec
  cases hpaths.symm.trans hfound
  obtain ⟨v, hv, hreturns, hpath⟩ := (hrecorded p).mp hp
  obtain ⟨earlier, hcourse⟩ := hg.exists_course hentry hv
  exact ⟨v, earlier, hcourse, hreturns, hpath⟩

/-! ## The order of discovery -/

/-- The visits of the first `n` levels from the entry on. -/
def visitsWithin (g : Graph) (entry : Block) (n : Nat) : List Visit :=
  (List.range n).flatMap (g.level [⟨entry, [entry.start]⟩])

/-- There are no visits beyond the depth of the graph. -/
theorem visitsWithin_of_depth_le {g : Graph} {entry : Block} (hmem : entry ∈ g.blocks) {n : Nat}
    (hn : g.depth ≤ n) : g.visitsWithin entry n = g.visitsWithin entry g.depth := by
  obtain ⟨more, rfl⟩ := Nat.exists_eq_add_of_le hn
  have hempty : ((List.range more).map (g.depth + ·)).flatMap
      (g.level [⟨entry, [entry.start]⟩]) = [] := by
    refine List.flatMap_eq_nil_iff.mpr fun k hk => ?_
    obtain ⟨j, -, rfl⟩ := List.mem_map.mp hk
    refine List.eq_nil_iff_forall_not_mem.mpr fun v hv => ?_
    have := lt_depth_of_mem_level hmem hv
    omega
  rw [visitsWithin, List.range_add, List.flatMap_append, hempty, List.append_nil]
  rfl

/-- The paths of a well-formed graph are those of the visits that return, added in the order in
which the levels have them. -/
theorem WellFormed.paths_eq {g : Graph} (hg : g.WellFormed) {entry : Block}
    (hentry : g.entry = .ok entry) {n : Nat} (hn : g.depth ≤ n) :
    g.paths = .ok ((((g.visitsWithin entry n).filter (·.block.last.flow = .returns)).map
      Visit.path).foldl .insert .empty) := by
  obtain ⟨b, hb, hunique⟩ := hg.entry_eq
  cases hentry.symm.trans hb
  have hexplore := hg.explore_eq hunique
  have hsteps : (g.explore entry).steps = (g.visitsWithin entry g.depth).map g.step := by
    rw [hexplore, visitsWithin, List.map_flatMap]
  have hreturns : (g.visitsWithin entry g.depth).filter
        ((fun step => decide (step.ending? = some .returned)) ∘ g.step) =
      (g.visitsWithin entry g.depth).filter (·.block.last.flow = .returns) := by
    refine List.filter_congr fun v hv => ?_
    obtain ⟨k, -, hv⟩ := List.mem_flatMap.mp hv
    exact decide_eq_decide.mpr
      (hg.step_ending?_eq (WellFormed.admissible_of_mem_level hunique hv).mem_blocks)
  have hpaths : (g.explore entry).paths = (((g.visitsWithin entry n).filter
      (·.block.last.flow = .returns)).map Visit.path).foldl .insert .empty := by
    rw [visitsWithin_of_depth_le (hunique.mpr rfl).1 hn, Exploration.paths,
      Exploration.foldl_record, hsteps, List.filter_map, List.map_map, hreturns]
    refine congrArg (List.foldl _ _) (List.map_congr_left fun v _ => ?_)
    rw [Function.comp_apply, step_visit]
  rw [← hpaths]
  simp only [Graph.paths, hentry, bind, Except.bind, Exploration.outcome, hexplore]

/-- The paths of a well-formed graph are those of the visits that return, in the order in which the
levels have them, each at its first place. -/
theorem WellFormed.exists_paths_eq {g : Graph} (hg : g.WellFormed) {entry : Block}
    (hentry : g.entry = .ok entry) {n : Nat} (hn : g.depth ≤ n) :
    ∃ paths, g.paths = .ok paths ∧ paths.toList =
      (((g.visitsWithin entry n).filter (·.block.last.flow = .returns)).map
        Visit.path).eraseDups :=
  ⟨_, hg.paths_eq hentry hn, (PathSet.toList_foldl_insert _).1⟩

end Graph

end Provenance
