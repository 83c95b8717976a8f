import Provenance.Proofs.Courses

/-!
# Paths without their handlers

Recording the handlers of finally clauses decorates paths and does nothing else. Which offsets of a
path are handlers can be read off the path and the blocks alone (`Graph.visited`), and a path
without them is a path that is found when no handlers are recorded (`Graph.bare_mem_paths`). The two
explorations admit blocks by different counts, since a handler counts as if its block had been
visited. But what a course has visited is part of what it has recorded, so the counts are never
higher without the handlers (`Graph.Course.exists_bare`). The handlers after a block are decided by
the block, so no two paths differ in their handlers only
(`Graph.Course.trail_eq_of_map_block_eq`).
-/

namespace Provenance

namespace Graph

/-! ## Leaving out the handlers -/

/-- Whether the block at an offset ends with an unconditional branch that leaves the protected range
of a finally clause. -/
def leavesFinally (g : Graph) (s : Nat) : Bool :=
  (Block.find? g.blocks s).any fun b =>
    b.last.flow = .unconditionalBranch && b.last.branchTarget?.any fun t =>
      g.clauses.any fun c => c.isFinally && c.tryContains b.last.offset && !c.tryContains t

/-- The offsets at which a path visits blocks, given all offsets that it records from a visit on.
After a block that leaves a finally clause comes a handler, and after the handler the next visit. -/
def visited (g : Graph) : List Nat → List Nat
  | [] => []
  | [s] => [s]
  | s :: next :: rest =>
    if g.leavesFinally s then s :: g.visited rest else s :: g.visited (next :: rest)

/-- A path without the handlers that it records. -/
def bare (g : Graph) (p : Path) : Path :=
  ⟨g.visited p.starts⟩

/-- The graph with handlers recorded, or not. -/
def withFinally (g : Graph) (model : Bool) : Graph :=
  { g with settings := { g.settings with modelFinally := model } }

section

variable {g : Graph}

/-- The first offset is visited, and the second one is not if it is a handler. -/
theorem visited_cons (s : Nat) (rest : List Nat) :
    g.visited (s :: rest) = s :: g.visited (if g.leavesFinally s then rest.tail else rest) := by
  cases rest with
  | nil => split <;> rfl
  | cons next rest =>
    rw [visited]
    split <;> rfl

/-- There is only one handler at a time, so their order is none. -/
theorem reverse_handlersAfter (v : Visit) : (g.handlersAfter v).reverse = g.handlersAfter v := by
  unfold handlersAfter
  split
  · next t _ _ => cases g.leftFinally? v.block.last.offset t <;> rfl
  · rfl

/-- Where control goes does not depend on whether handlers are recorded. -/
theorem Leads.withFinally {a b : Block} (h : g.Leads a b) (model : Bool) :
    (g.withFinally model).Leads a b := by
  refine ⟨h.mem, ?_⟩
  cases h.goes with
  | branch flow target => exact .branch flow target
  | taken flow target => exact .taken flow target
  | notTaken flow next => exact .notTaken flow next
  | caught flow caught next => exact .caught flow caught next
  | onward flow next => exact .onward flow next

namespace WellFormed

variable (hg : g.WellFormed)

include hg

/-- Looking up the starts of blocks gives back the blocks. -/
theorem map_find?_map_start {walk : List Block} (h : ∀ b ∈ walk, b ∈ g.blocks) :
    (walk.map Block.start).map (Block.find? g.blocks) = walk.map some := by
  rw [List.map_map]
  exact List.map_congr_left fun b hb => hg.find.mpr ⟨h b hb, rfl⟩

/-- If handlers are recorded, one is recorded after a visit exactly if the block leaves a finally
clause. -/
theorem handlersAfter_eq_nil_iff (hmodel : g.settings.modelFinally) {v : Visit}
    (hv : v.block ∈ g.blocks) : g.handlersAfter v = [] ↔ g.leavesFinally v.block.start = false := by
  have hfind : Block.find? g.blocks v.block.start = some v.block := hg.find.mpr ⟨hv, rfl⟩
  rw [leavesFinally, hfind, Option.any_some]
  by_cases hflow : v.block.last.flow = .unconditionalBranch
  · cases htarget : v.block.last.branchTarget? with
    | none => simp [handlersAfter, hflow, htarget]
    | some t => simp [handlersAfter, leftFinally?, hflow, htarget, hmodel]
  · rw [handlersAfter_of_flow_ne hflow]
    simp [hflow]

/-- Leaving out the handlers after each visit leaves the visits. -/
theorem visited_flatMap (hmodel : g.settings.modelFinally) (s : Nat) {us : List Visit}
    (hus : ∀ u ∈ us, u.block ∈ g.blocks) :
    g.visited (us.flatMap (fun u => u.block.start :: g.handlersAfter u) ++ [s]) =
      us.map (·.block.start) ++ [s] := by
  induction us with
  | nil => rfl
  | cons u us ih =>
    obtain ⟨hu, hrest⟩ := List.forall_mem_cons.mp hus
    have hiff := hg.handlersAfter_eq_nil_iff hmodel hu
    rw [List.flatMap_cons, List.cons_append, List.cons_append, visited_cons, List.map_cons,
      List.cons_append]
    refine congrArg _ ?_
    by_cases hnil : g.handlersAfter u = []
    · rw [hiff.mp hnil, hnil, List.nil_append]
      exact ih hrest
    · -- There is a handler, and since there is only one it is the next offset.
      obtain ⟨handler, hone⟩ : ∃ handler, g.handlersAfter u = [handler] := by
        refine List.length_eq_one_iff.mp (Nat.le_antisymm (g.length_handlersAfter_le u) ?_)
        exact List.length_pos_iff.mpr hnil
      rw [if_pos (by simpa using mt hiff.mpr hnil), hone]
      exact ih hrest

end WellFormed

/-! ## Courses with and without handlers -/

namespace Course

variable {entry : Block} {v w : Visit} {earlier others : List Visit}

/-- What a path records, in the order in which it does: the starts of the blocks that it visits and
after each of them but the last the handlers on the way. -/
theorem starts_path (h : g.Course entry (v :: earlier)) :
    v.path.starts = earlier.reverse.flatMap (fun u => u.block.start :: g.handlersAfter u) ++
      [v.block.start] := by
  have hreverse : ∀ u, (g.handlersAfter u ++ [u.block.start]).reverse =
      u.block.start :: g.handlersAfter u := by
    intro u
    rw [List.reverse_append, List.reverse_singleton, List.singleton_append, reverse_handlersAfter]
  show v.trail.reverse = _
  rw [h.trail_eq, List.reverse_cons, List.reverse_flatMap]
  simp only [Function.comp_def, hreverse]

/-- Without its handlers a path is the starts of the blocks that were visited. -/
theorem visited_starts_path (hg : g.WellFormed) (hmodel : g.settings.modelFinally)
    (hmem : entry ∈ g.blocks) (h : g.Course entry (v :: earlier)) :
    g.visited v.path.starts = ((v :: earlier).map (·.block.start)).reverse := by
  have hblocks : ∀ u ∈ earlier.reverse, u.block ∈ g.blocks := by
    intro u hu
    exact h.mem_blocks hmem u (List.mem_cons_of_mem _ (List.mem_reverse.mp hu))
  rw [h.starts_path, hg.visited_flatMap hmodel _ hblocks, List.map_cons, List.reverse_cons,
    List.map_reverse]

/-- Courses through the same blocks have recorded the same. -/
theorem trail_eq_of_map_block_eq (h : g.Course entry (v :: earlier))
    (h' : g.Course entry (w :: others))
    (hblocks : (v :: earlier).map (·.block) = (w :: others).map (·.block)) : v.trail = w.trail := by
  obtain ⟨hlatest, hearlier⟩ := List.cons.inj hblocks
  -- The handlers after a visit depend on its block only.
  have hrecorded : ∀ us : List Visit,
      us.flatMap (fun u => g.handlersAfter u ++ [u.block.start]) =
        (us.map (·.block)).flatMap fun b => g.handlersAfter ⟨b, []⟩ ++ [b.start] := by
    intro us
    rw [List.flatMap_map]
    rfl
  have hstart : v.block.start = w.block.start := congrArg Block.start hlatest
  rw [h.trail_eq, h'.trail_eq, hstart, hrecorded, hrecorded, hearlier]

/-- In a well-formed graph the starts of the blocks that were visited tell courses apart. -/
theorem trail_eq_of_map_start_eq (hg : g.WellFormed) (hmem : entry ∈ g.blocks)
    (h : g.Course entry (v :: earlier)) (h' : g.Course entry (w :: others))
    (hstarts : (v :: earlier).map (·.block.start) = (w :: others).map (·.block.start)) :
    v.trail = w.trail := by
  have hfound : ∀ {visits : List Visit}, g.Course entry visits →
      (visits.map (·.block.start)).map (Block.find? g.blocks) =
        (visits.map (·.block)).map some := by
    intro visits hvisits
    rw [← hg.map_find?_map_start (List.forall_mem_map.mpr (hvisits.mem_blocks hmem)),
      List.map_map, List.map_map, List.map_map]
    rfl
  refine h.trail_eq_of_map_block_eq h' ?_
  refine List.map_injective_iff.mpr (Option.some_injective _) ?_
  rw [← hfound h, ← hfound h', hstarts]

/-- The blocks of a course are visited in the same order by a path that records no handlers. -/
theorem exists_bare (hmem : entry ∈ g.blocks) (hentry : entry.isEntry)
    (h : g.Course entry (v :: earlier)) :
    ∃ w, (g.withFinally false).Admissible w ∧ w.block = v.block ∧
      w.path.starts = ((v :: earlier).map (·.block.start)).reverse := by
  obtain ⟨walk, hwalk, hchain⟩ := h.exists_walk
  have hstarts :
      ((v :: earlier).map (·.block.start)).reverse = (entry :: walk).map Block.start := by
    rw [← hwalk, ← List.map_reverse, ← List.map_reverse, List.map_map]
    rfl
  -- What is counted when a block is entered includes what was visited.
  have hcount : ∀ s, ([entry.start] ++ walk.map Block.start).count s ≤
      (g.withFinally false).settings.revisitLimit + 1 := by
    intro s
    have hle := h.count_le s
    rw [← List.count_reverse, hstarts] at hle
    exact hle
  have hplain := handlersAfter_eq_nil (g := g.withFinally false) (.inl rfl)
  have hstart : (g.withFinally false).Admissible ⟨entry, [entry.start]⟩ := .entry hmem hentry
  obtain ⟨w, hw, hlast, htrail⟩ := hstart.exists_walk hplain
    (hchain.imp fun a b hab => hab.withFinally false) hcount
  refine ⟨w, hw, ?_, ?_⟩
  · rw [← hwalk, List.getLast?_reverse] at hlast
    exact (Option.some.inj hlast).symm
  · show w.trail.reverse = _
    rw [htrail, hstarts, List.reverse_append, List.reverse_reverse]
    rfl

end Course

end

/-! ## The paths of a method -/

/-- Recording handlers only decorates paths. Over the blocks of any instructions that were read,
with any clauses and any revisit limit, each path that is found with handlers recorded is without
its handlers a path that is found without recording them, and different paths stay different. So
control goes from each visited block to a successor of it, and there are not more paths with
handlers than without. -/
theorem bare_mem_paths {instructions : List Instruction} {length : Nat} {clauses : List Clause}
    {blocks : Array Block} (hread : ∀ i ∈ instructions, i.Decoded)
    (hblocks : Block.partition instructions length clauses = .ok blocks)
    (regions : List Clause) (revisitLimit : Nat) :
    ∃ decorated plain, (Graph.mk blocks regions ⟨revisitLimit, true⟩).paths = .ok decorated ∧
      (Graph.mk blocks regions ⟨revisitLimit, false⟩).paths = .ok plain ∧
      (∀ p ∈ decorated.toList,
        (Graph.mk blocks regions ⟨revisitLimit, true⟩).bare p ∈ plain.toList) ∧
      (∀ p ∈ decorated.toList, ∀ q ∈ decorated.toList,
        (Graph.mk blocks regions ⟨revisitLimit, true⟩).bare p =
          (Graph.mk blocks regions ⟨revisitLimit, true⟩).bare q → p = q) ∧
      (∀ p ∈ decorated.toList,
        ((Graph.mk blocks regions ⟨revisitLimit, true⟩).bare p).starts.IsChain fun s t =>
          ∃ a b, (Graph.mk blocks regions ⟨revisitLimit, true⟩).Leads a b ∧
            a.start = s ∧ b.start = t) ∧
      decorated.size ≤ plain.size := by
  have pos : ∀ i ∈ instructions, 0 < i.size := fun i hi => (hread i hi).size_pos
  have hg := wellFormed_of_partition pos hblocks regions ⟨revisitLimit, true⟩
  have hg' := wellFormed_of_partition pos hblocks regions ⟨revisitLimit, false⟩
  obtain ⟨entry, -, hunique⟩ := hg.entry_eq
  obtain ⟨hmem, hmarked⟩ := hunique.mpr rfl
  obtain ⟨decorated, hdecorated, hnodup, -⟩ := hg.paths_spec
  obtain ⟨plain, hplain, -, hfound⟩ := hg'.paths_spec
  have hcourse : ∀ p ∈ decorated.toList, ∃ v earlier,
      (Graph.mk blocks regions ⟨revisitLimit, true⟩).Course entry (v :: earlier) ∧
      v.block.last.flow = .returns ∧ v.path = p ∧
      ((Graph.mk blocks regions ⟨revisitLimit, true⟩).bare p).starts =
        ((v :: earlier).map (·.block.start)).reverse := by
    intro p hp
    obtain ⟨v, earlier, hearlier, hreturns, rfl⟩ :=
      hg.exists_course_of_mem_paths hunique hdecorated hp
    exact ⟨v, earlier, hearlier, hreturns, rfl, hearlier.visited_starts_path hg rfl hmem⟩
  have hbare : ∀ p ∈ decorated.toList,
      (Graph.mk blocks regions ⟨revisitLimit, true⟩).bare p ∈ plain.toList := by
    intro p hp
    obtain ⟨v, earlier, hv, hreturns, -, hstarts⟩ := hcourse p hp
    obtain ⟨w, hw, hblock, hpath⟩ := hv.exists_bare hmem hmarked
    refine (hfound _).mpr ⟨w, hw, hblock ▸ hreturns, ?_⟩
    exact congrArg Path.mk (hpath.trans hstarts.symm)
  have hinjective : ∀ p ∈ decorated.toList, ∀ q ∈ decorated.toList,
      (Graph.mk blocks regions ⟨revisitLimit, true⟩).bare p =
        (Graph.mk blocks regions ⟨revisitLimit, true⟩).bare q → p = q := by
    intro p hp q hq heq
    obtain ⟨v, earlier, hv, -, rfl, hstarts⟩ := hcourse p hp
    obtain ⟨w, others, hw, -, rfl, hstarts'⟩ := hcourse q hq
    have hsame := hstarts.symm.trans ((congrArg Path.starts heq).trans hstarts')
    have htrail := hv.trail_eq_of_map_start_eq hg hmem hw (List.reverse_injective hsame)
    rw [Visit.path, htrail, Visit.path]
  refine ⟨decorated, plain, hdecorated, hplain, hbare, hinjective, ?_, ?_⟩
  · intro p hp
    obtain ⟨v, earlier, hv, -, -, hstarts⟩ := hcourse p hp
    rw [hstarts, List.isChain_reverse, List.isChain_map]
    refine (List.isChain_map _).mp hv.isChain_leads |>.imp ?_
    intro u u' hleads
    exact ⟨_, _, hleads, rfl, rfl⟩
  · rw [size_eq_length_of_paths hdecorated, size_eq_length_of_paths hplain,
      ← List.length_map (f := (Graph.mk blocks regions ⟨revisitLimit, true⟩).bare)]
    have hdistinct := hnodup.map_on fun p hp q hq => hinjective p hp q hq
    exact (List.subperm_of_subset hdistinct (List.forall_mem_map.mpr hbare)).length_le

/-- A loop around a range that is left through a finally handler, with a limit of zero: the path
that does not go round records the handler, and without the handler it is found too. -/
theorem bare_mem_paths_finally_loop :
    ∃ is blocks decorated plain,
      Body.decode Body.guardedLoop = .ok is ∧
      Block.partition is 8 [Body.loopFinally] = .ok blocks ∧
      (Graph.mk blocks [Body.loopFinally] ⟨0, true⟩).paths = .ok decorated ∧
      (Graph.mk blocks [Body.loopFinally] ⟨0, false⟩).paths = .ok plain ∧
      ⟨[0, 3, 4, 7]⟩ ∈ decorated.toList ∧ ⟨[0, 4, 7]⟩ ∈ plain.toList ∧
      decorated.size ≤ plain.size := by
  have hok : ((Body.decode Body.guardedLoop).bind fun is =>
      (Block.partition is 8 [Body.loopFinally]).bind fun blocks =>
        (Graph.mk blocks [Body.loopFinally] ⟨0, true⟩).paths.bind fun decorated =>
          .ok (decorated.toList, (Graph.mk blocks [Body.loopFinally] ⟨0, true⟩).bare
            ⟨[0, 3, 4, 7]⟩)) =
      .ok ([⟨[0, 3, 4, 7]⟩], ⟨[0, 4, 7]⟩) := by cbv
  obtain ⟨is, hread, hok⟩ := bind_eq_ok_iff.mp hok
  obtain ⟨blocks, hblocks, hok⟩ := bind_eq_ok_iff.mp hok
  obtain ⟨decorated, hdecorated, hok⟩ := bind_eq_ok_iff.mp hok
  obtain ⟨hlist, hpath⟩ := Prod.mk.inj (Except.ok.inj hok)
  obtain ⟨decorated', plain, hdecorated', hplain, hbare, -, -, hsize⟩ := bare_mem_paths
    (fun i hi => Body.decoded_of_mem hread hi) hblocks [Body.loopFinally] 0
  cases hdecorated.symm.trans hdecorated'
  have hp : ⟨[0, 3, 4, 7]⟩ ∈ decorated.toList := by
    rw [hlist]
    exact List.mem_singleton_self _
  exact ⟨is, blocks, decorated, plain, hread, hblocks, hdecorated, hplain, hp, hpath ▸ hbare _ hp,
    hsize⟩

end Graph

end Provenance
