import Provenance.Proofs.Coverage

/-!
# Which methods have paths

Where no handlers are recorded, a method has a path exactly if control can get from its entry to a
return (`Graph.isEmpty_paths_eq_false_iff`), whatever the revisit limit. A path only goes where
control can go (`Graph.Admissible.reflTransGen_leads`). Conversely control that gets to a block gets
there along a walk without repetition, and no limit keeps a path from such a walk
(`Graph.WellFormed.exists_admissible_of_reflTransGen`).
-/

namespace Provenance

/-- A set has a path exactly if it is not empty. -/
theorem PathSet.isEmpty_eq_false_iff {s : PathSet} : s.isEmpty = false ↔ ∃ p, p ∈ s.toList := by
  rw [isEmpty, List.isEmpty_eq_false_iff_exists_mem, toList]
  simp only [List.mem_reverse]

namespace Graph

variable {g : Graph} {entry : Block}

/-- A path stays where control can get from the entry. -/
theorem Admissible.reflTransGen_leads
    (hentry : ∀ {b : Block}, (b ∈ g.blocks ∧ b.isEntry) ↔ b = entry) {v : Visit}
    (h : g.Admissible v) : Relation.ReflTransGen g.Leads entry v.block := by
  induction h with
  | entry mem marked =>
    cases hentry.mp ⟨mem, marked⟩
    exact .refl
  | extend _ hext ih => exact ih.tail (extends_iff.mp hext).1

/-- Where no handlers are recorded, a path gets to every block that control can get to, without
coming to any block twice. -/
theorem WellFormed.exists_admissible_of_reflTransGen (hg : g.WellFormed)
    (hplain : ∀ v, g.handlersAfter v = []) (hmem : entry ∈ g.blocks) (hentry : entry.isEntry)
    {r : Block} (hr : Relation.ReflTransGen g.Leads entry r) :
    ∃ v, g.Admissible v ∧ v.block = r ∧ v.path.starts.Nodup := by
  obtain ⟨walk, hchain, hnodup, hlast⟩ := hg.exists_simple_walk hmem hr
  -- The walk comes to each block once, and that often every limit allows.
  have hcount : ∀ s, ([entry.start] ++ walk.map Block.start).count s ≤
      g.settings.revisitLimit + 1 := by
    intro s
    have hone := List.nodup_iff_count_le_one.mp hnodup s
    rw [List.map_cons] at hone
    exact Nat.le_trans hone (Nat.succ_le_succ (Nat.zero_le _))
  obtain ⟨v, hv, hblock, htrail⟩ := (Admissible.entry hmem hentry).exists_walk hplain hchain hcount
  refine ⟨v, hv, Option.mem_unique hblock hlast, ?_⟩
  show v.trail.reverse.Nodup
  rw [htrail, List.reverse_append, List.reverse_reverse]
  exact hnodup

/-- Over the blocks of any instructions that were read, with any clauses and any revisit limit, if
no handlers are to be recorded or no clause has any, a method has a path exactly if a block whose
last instruction returns can be reached from the entry. -/
theorem isEmpty_paths_eq_false_iff {instructions : List Instruction} {length : Nat}
    {clauses : List Clause} {blocks : Array Block} (hread : ∀ i ∈ instructions, i.Decoded)
    (hblocks : Block.partition instructions length clauses = .ok blocks)
    (regions : List Clause) (settings : Settings)
    (hplain : settings.modelFinally = false ∨ ∀ c ∈ regions, ¬ c.isFinally) :
    ∃ entry paths, (Graph.mk blocks regions settings).entry = .ok entry ∧
      (Graph.mk blocks regions settings).paths = .ok paths ∧
      (paths.isEmpty = false ↔ ∃ r ∈ blocks, r.last.flow = .returns ∧
        Relation.ReflTransGen (Graph.mk blocks regions settings).Leads entry r) := by
  have hg := wellFormed_of_partition (fun i hi => (hread i hi).size_pos) hblocks regions settings
  obtain ⟨entry, hentry, hunique⟩ := hg.entry_eq
  obtain ⟨hmem, hmarked⟩ := hunique.mpr rfl
  obtain ⟨paths, hpaths, -, hrecorded⟩ := hg.paths_spec
  refine ⟨entry, paths, hentry, hpaths, ?_⟩
  rw [PathSet.isEmpty_eq_false_iff]
  constructor
  · rintro ⟨p, hp⟩
    obtain ⟨v, hv, hreturns, -⟩ := (hrecorded p).mp hp
    exact ⟨v.block, hv.mem_blocks, hreturns, hv.reflTransGen_leads hunique⟩
  · rintro ⟨r, -, hreturns, hr⟩
    obtain ⟨v, hv, rfl, -⟩ :=
      hg.exists_admissible_of_reflTransGen (handlersAfter_eq_nil hplain) hmem hmarked hr
    exact ⟨v.path, (hrecorded _).mpr ⟨v, hv, hreturns, rfl⟩⟩

/-- A loop before the return, in a body without clauses and with a limit of zero: there is a path,
so the return can be reached. -/
theorem isEmpty_paths_eq_false_iff_loop :
    ∃ is blocks, Body.decode Body.loop = .ok is ∧
      Block.partition is 4 [] = .ok blocks ∧
      ∃ entry paths, (Graph.mk blocks [] ⟨0, true⟩).entry = .ok entry ∧
        (Graph.mk blocks [] ⟨0, true⟩).paths = .ok paths ∧ paths.isEmpty = false ∧
        ∃ r ∈ blocks, r.last.flow = .returns ∧
          Relation.ReflTransGen (Graph.mk blocks [] ⟨0, true⟩).Leads entry r := by
  have hok : ((Body.decode Body.loop).bind fun is =>
      (Block.partition is 4 []).bind fun blocks =>
        (Graph.mk blocks [] ⟨0, true⟩).paths.bind fun paths => .ok paths.isEmpty) = .ok false := by
    cbv
  obtain ⟨is, hread, hok⟩ := bind_eq_ok_iff.mp hok
  obtain ⟨blocks, hblocks, hok⟩ := bind_eq_ok_iff.mp hok
  obtain ⟨paths, hpaths, hok⟩ := bind_eq_ok_iff.mp hok
  obtain ⟨entry, paths', hentry, hpaths', hiff⟩ := isEmpty_paths_eq_false_iff
    (fun i hi => Body.decoded_of_mem hread hi) hblocks [] ⟨0, true⟩ (.inr (by simp))
  cases hpaths.symm.trans hpaths'
  have hfound : paths.isEmpty = false := Except.ok.inj hok
  exact ⟨is, blocks, hread, hblocks, entry, paths, hentry, hpaths, hfound, hiff.mp hfound⟩

end Graph

end Provenance
