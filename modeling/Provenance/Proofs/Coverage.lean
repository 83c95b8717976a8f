import Provenance.Proofs.ExactPaths
import Provenance.Proofs.Replay
import Provenance.Proofs.Simulation
import Provenance.Proofs.Successors

/-!
# Paths cover what leads to a return

If a path may come back to a block at least once and no handlers are recorded, the paths of a method
cover every step of control that is on the way from the entry to a return, and so a simulation of
the paths carries out every block on such a way (`Graph.paths_cover`). Control gets to the step
along a walk without repetition and from there to the return along another one. Together they come
to no block more than twice, so each of their steps is admitted
(`Graph.WellFormed.exists_path_through_edge`).
-/

namespace Provenance

/-! ## Walks through an edge -/

namespace Graph.WellFormed

variable {g : Graph} {entry a b r : Block}

/-- Control gets from one block to another along a walk that comes to no offset twice. -/
theorem exists_simple_walk (hg : g.WellFormed) (ha : a ∈ g.blocks)
    (h : Relation.ReflTransGen g.Leads a b) :
    ∃ walk, (a :: walk).IsChain g.Leads ∧ ((a :: walk).map Block.start).Nodup ∧
      b ∈ (a :: walk).getLast? := by
  obtain ⟨walk, hchain, hnodup, hlast⟩ := exists_nodup_isChain h
  have hmem : ∀ c ∈ a :: walk, c ∈ g.blocks := by
    intro c hc
    rcases List.mem_cons.mp hc with rfl | hc
    · exact ha
    · obtain ⟨_, -, hleads⟩ := exists_before_of_isChain hchain c hc
      exact hleads.mem
  refine ⟨walk, hchain, hnodup.map_on ?_, hlast⟩
  intro c hc d hd heq
  exact hg.eq_of_start_eq (hmem c hc) (hmem d hd) heq

variable (hg : g.WellFormed) (hplain : ∀ v, g.handlersAfter v = [])
  (hlimit : 1 ≤ g.settings.revisitLimit) (hmem : entry ∈ g.blocks) (hentry : entry.isEntry)

include hg hplain hlimit hmem hentry

/-- A step of control that can be reached and that leads on to a block is on a path that ends with
this block. -/
theorem exists_path_through_edge (ha : Relation.ReflTransGen g.Leads entry a) (hab : g.Leads a b)
    (hr : Relation.ReflTransGen g.Leads b r) :
    ∃ v, g.Admissible v ∧ v.block = r ∧ [a.start, b.start] <:+: v.path.starts := by
  obtain ⟨first, hfirst, hfirstNodup, hfirstLast⟩ := hg.exists_simple_walk hmem ha
  obtain ⟨second, hsecond, hsecondNodup, hsecondLast⟩ := hg.exists_simple_walk hab.mem hr
  have hchain : (entry :: (first ++ b :: second)).IsChain g.Leads := by
    refine List.isChain_append.mpr ⟨hfirst, hsecond, ?_⟩
    intro x hx y hy
    cases Option.mem_unique hx hfirstLast
    cases hy
    exact hab
  -- Each of the two walks comes to a block once at most.
  have hcount : ∀ s, ([entry.start] ++ (first ++ b :: second).map Block.start).count s ≤
      g.settings.revisitLimit + 1 := by
    intro s
    have hones : ((entry :: first).map Block.start).count s +
        ((b :: second).map Block.start).count s ≤ 1 + 1 :=
      Nat.add_le_add (List.nodup_iff_count_le_one.mp hfirstNodup s)
        (List.nodup_iff_count_le_one.mp hsecondNodup s)
    rw [← List.count_append, ← List.map_append] at hones
    exact Nat.le_trans hones (Nat.succ_le_succ hlimit)
  obtain ⟨w, hw, hlast, htrail⟩ :=
    (Admissible.entry hmem hentry).exists_walk hplain hchain hcount
  refine ⟨w, hw, ?_, ?_⟩
  · rw [← List.cons_append, List.getLast?_append_cons] at hlast
    exact Option.mem_unique hlast hsecondLast
  · have hstarts : w.path.starts =
        (entry :: first).map Block.start ++ (b :: second).map Block.start := by
      rw [Visit.path, htrail, List.reverse_append, List.reverse_reverse, List.map_append]
      rfl
    obtain ⟨before, hbefore⟩ := List.getLast?_eq_some_iff.mp hfirstLast
    refine ⟨before.map Block.start, second.map Block.start, ?_⟩
    rw [hstarts, hbefore]
    simp

/-- A block that can be reached and that leads on to another block is on a path that ends with that
block. -/
theorem exists_path_through_block (ha : Relation.ReflTransGen g.Leads entry a)
    (hr : Relation.ReflTransGen g.Leads a r) :
    ∃ v, g.Admissible v ∧ v.block = r ∧ a.start ∈ v.path.starts := by
  rcases Relation.ReflTransGen.cases_head hr with rfl | ⟨b, hab, hr⟩
  · -- The way from the block on is over, so the step to the block is taken instead.
    rcases Relation.ReflTransGen.cases_tail ha with rfl | ⟨c, hc, hca⟩
    · exact ⟨_, .entry hmem hentry, rfl, List.mem_singleton_self _⟩
    · obtain ⟨v, hv, hblock, hedge⟩ :=
        hg.exists_path_through_edge hplain hlimit hmem hentry hc hca .refl
      exact ⟨v, hv, hblock, hedge.subset (by simp)⟩
  · obtain ⟨v, hv, hblock, hedge⟩ :=
      hg.exists_path_through_edge hplain hlimit hmem hentry ha hab hr
    exact ⟨v, hv, hblock, hedge.subset (by simp)⟩

end Graph.WellFormed

/-! ## Blocks that a simulation carries out -/

namespace Replay

variable {resolver : Resolver} {blocks : Array Block} {p : Path} {r : Replay}

/-- What was recorded stays recorded when an instruction is carried out. -/
theorem edges_suffix_step (r : Replay) (i : Instruction) :
    r.edges <:+ (r.step resolver i).edges := by
  unfold step
  split
  · exact List.suffix_refl _
  · split
    · exact List.suffix_append ..
    · exact List.suffix_refl _

/-- What was recorded stays recorded when instructions are carried out in a row. -/
theorem edges_suffix_foldl_step (is : List Instruction) (r : Replay) :
    r.edges <:+ (is.foldl (step resolver) r).edges := by
  induction is generalizing r with
  | nil => exact List.suffix_refl _
  | cons i rest ih => exact (r.edges_suffix_step i).trans (ih _)

/-- What was recorded stays recorded when blocks are entered. -/
theorem edges_suffix_foldl_enter (starts : List Nat) (r : Replay) :
    r.edges <:+ (starts.foldl (enter resolver blocks p) r).edges := by
  induction starts generalizing r with
  | nil => exact List.suffix_refl _
  | cons start rest ih =>
    refine List.IsSuffix.trans ?_ (ih _)
    unfold enter
    split
    · exact List.suffix_refl _
    · split
      · exact edges_suffix_foldl_step ..
      · exact List.suffix_refl _

end Replay

/-- A simulation of some paths that found these edges carried out a block: the replay of one of the
paths came to the block and through it without an error, and the edges are there that it had
recorded by then. -/
def Simulation.CarriedOut (resolver : Resolver) (blocks : Array Block) (paths : List Path)
    (edges : EdgeSet) (b : Block) : Prop :=
  ∃ p ∈ paths, ∃ before after, p.starts = before ++ b.start :: after ∧
    ((before.foldl (Replay.enter resolver blocks p) {}).block resolver b).fault? = none ∧
    ∀ e ∈ ((before.foldl (Replay.enter resolver blocks p) {}).block resolver b).edges,
      e ∈ edges.toList

/-- A simulation that succeeds has carried out the blocks on its paths. -/
theorem Simulation.carriedOut_of_outcome {resolver : Resolver} {blocks : Array Block}
    {paths : List Path} {edges : EdgeSet}
    (h : (run resolver blocks .empty paths).outcome = .ok edges) {p : Path} (hp : p ∈ paths)
    {b : Block} (hb : Block.find? blocks b.start = some b) (hstart : b.start ∈ p.starts) :
    CarriedOut resolver blocks paths edges b := by
  obtain ⟨before, after, hsplit⟩ := List.append_of_mem hstart
  obtain ⟨hfaults, -⟩ := outcome_run_eq_ok_iff.mp h
  have hfault := hfaults p hp
  have hrest : Replay.path resolver blocks p = after.foldl (Replay.enter resolver blocks p)
      ((before.foldl (Replay.enter resolver blocks p) {}).block resolver b) := by
    rw [Replay.path, hsplit, List.foldl_append, List.foldl_cons, Replay.enter_eq hb]
    rfl
  refine ⟨p, hp, before, after, hsplit, ?_, ?_⟩
  · cases hblock : ((before.foldl (Replay.enter resolver blocks p) {}).block resolver b).fault? with
    | none => rfl
    | some e =>
      rw [hrest, Replay.foldl_enter_of_fault hblock, hblock] at hfault
      cases hfault
  · intro e he
    refine (mem_toList_iff_of_outcome h).mpr ⟨p, hp, ?_⟩
    rw [hrest]
    exact (Replay.edges_suffix_foldl_enter after _).subset he

/-! ## The paths of a method -/

/-- Over the blocks of any instructions that were read, with any clauses, if a path may come back to
a block at least once and no handlers are to be recorded or no clause has any, the paths of a method
cover every step of control from a block that can be reached to one from which a return can be
reached. So every block that can be reached, and from which a return can be reached, is on a path,
and a simulation of the paths that succeeds has carried it out. -/
theorem Graph.paths_cover {instructions : List Instruction} {length : Nat} {clauses : List Clause}
    {blocks : Array Block} (hread : ∀ i ∈ instructions, i.Decoded)
    (hblocks : Block.partition instructions length clauses = .ok blocks)
    (regions : List Clause) (settings : Settings) (hlimit : 1 ≤ settings.revisitLimit)
    (hplain : settings.modelFinally = false ∨ ∀ c ∈ regions, ¬ c.isFinally) :
    ∃ entry paths, (Graph.mk blocks regions settings).entry = .ok entry ∧
      (Graph.mk blocks regions settings).paths = .ok paths ∧
      (∀ a b r, Relation.ReflTransGen (Graph.mk blocks regions settings).Leads entry a →
        (Graph.mk blocks regions settings).Leads a b →
        Relation.ReflTransGen (Graph.mk blocks regions settings).Leads b r →
        r.last.flow = .returns → ∃ p ∈ paths.toList, [a.start, b.start] <:+: p.starts) ∧
      ∀ a r, Relation.ReflTransGen (Graph.mk blocks regions settings).Leads entry a →
        Relation.ReflTransGen (Graph.mk blocks regions settings).Leads a r →
        r.last.flow = .returns →
          (∃ p ∈ paths.toList, a.start ∈ p.starts) ∧
          ∀ resolver edges, (Simulation.run resolver blocks .empty paths.toList).outcome =
            .ok edges → Simulation.CarriedOut resolver blocks paths.toList edges a := by
  have hg := wellFormed_of_partition (fun i hi => (hread i hi).size_pos) hblocks regions settings
  obtain ⟨entry, hentry, hunique⟩ := hg.entry_eq
  obtain ⟨hmem, hmarked⟩ := hunique.mpr rfl
  obtain ⟨paths, hpaths, -, hrecorded⟩ := hg.paths_spec
  have hnone := handlersAfter_eq_nil (g := ⟨blocks, regions, settings⟩) hplain
  refine ⟨entry, paths, hentry, hpaths, ?_, ?_⟩
  · intro a b r ha hab hr hreturns
    obtain ⟨v, hv, rfl, hedge⟩ :=
      hg.exists_path_through_edge hnone hlimit hmem hmarked ha hab hr
    exact ⟨v.path, (hrecorded _).mpr ⟨v, hv, hreturns, rfl⟩, hedge⟩
  · intro a r ha hr hreturns
    obtain ⟨v, hv, rfl, hstart⟩ := hg.exists_path_through_block hnone hlimit hmem hmarked ha hr
    have hp : v.path ∈ paths.toList := (hrecorded _).mpr ⟨v, hv, hreturns, rfl⟩
    refine ⟨⟨v.path, hp, hstart⟩, fun resolver edges houtcome => ?_⟩
    have hblock : a ∈ blocks := by
      rcases Relation.ReflTransGen.cases_tail ha with rfl | ⟨_, -, hleads⟩
      · exact hmem
      · exact hleads.mem
    exact Simulation.carriedOut_of_outcome houtcome hp (hg.find.mpr ⟨hblock, rfl⟩) hstart

/-- A loop with one way round and one way out, after the start of the body. -/
def Body.loopAfterStart : List UInt8 :=
  [0x00, 0x02, 0x2D, 0xFD, 0x2A]

/-- Without clauses a path goes round the loop, and a simulation of the paths carries the loop
out. -/
theorem Graph.paths_cover_loop :
    ∃ is blocks, Body.decode Body.loopAfterStart = .ok is ∧
      Block.partition is 5 [] = .ok blocks ∧
      ∃ paths, (Graph.mk blocks [] ⟨1, true⟩).paths = .ok paths ∧
        (∃ p ∈ paths.toList, [1, 1] <:+: p.starts) ∧
        ∃ b ∈ blocks, b.start = 1 ∧ ∀ resolver edges,
          (Simulation.run resolver blocks .empty paths.toList).outcome = .ok edges →
            Simulation.CarriedOut resolver blocks paths.toList edges b := by
  have hok : ((Body.decode Body.loopAfterStart).bind fun is =>
      (Block.partition is 5 []).bind fun blocks =>
        (Graph.mk blocks [] ⟨1, true⟩).entry.bind fun entry =>
          .ok ((entry.last.flow, entry.last.next), blocks.toList.map fun b =>
            (b.start, b.last.flow, b.last.targets, b.last.next))) =
      .ok ((.sequential, 1), [(0, .sequential, [], 1), (1, .conditionalBranch, [1], 4),
        (4, .returns, [], 5)]) := by cbv
  obtain ⟨is, hread, hok⟩ := bind_eq_ok_iff.mp hok
  obtain ⟨blocks, hblocks, hok⟩ := bind_eq_ok_iff.mp hok
  obtain ⟨entry, hentry, hok⟩ := bind_eq_ok_iff.mp hok
  simp only [Except.ok.injEq, Prod.mk.injEq] at hok
  obtain ⟨⟨hflow, hnext⟩, hlist⟩ := hok
  obtain ⟨entry', paths, hentry', hpaths, hsteps, hsimulated⟩ :=
    paths_cover (fun i hi => Body.decoded_of_mem hread hi) hblocks [] ⟨1, true⟩ (by decide)
      (.inr (by simp))
  cases hentry.symm.trans hentry'
  -- the loop and the return, by what their last instructions say
  have hblock : ∀ row ∈ [(0, .sequential, [], 1), (1, .conditionalBranch, [1], 4),
      (4, .returns, [], 5)], ∃ b ∈ blocks,
        (b.start, b.last.flow, b.last.targets, b.last.next) = row := by
    intro row hrow
    rw [← hlist] at hrow
    obtain ⟨b, hb, heq⟩ := List.mem_map.mp hrow
    exact ⟨b, Array.mem_toList_iff.mp hb, heq⟩
  obtain ⟨b₁, hmem₁, heq₁⟩ := hblock (1, .conditionalBranch, [1], 4) (by simp)
  obtain ⟨b₂, hmem₂, heq₂⟩ := hblock (4, .returns, [], 5) (by simp)
  simp only [Prod.mk.injEq] at heq₁ heq₂
  obtain ⟨hstart₁, hflow₁, htargets₁, hnext₁⟩ := heq₁
  obtain ⟨hstart₂, hflow₂, -, -⟩ := heq₂
  have hreach : Relation.ReflTransGen (Graph.mk blocks [] ⟨1, true⟩).Leads entry b₁ :=
    .single ⟨hmem₁, .onward (by simp [hflow]) (by rw [hnext, hstart₁])⟩
  have hround : (Graph.mk blocks [] ⟨1, true⟩).Leads b₁ b₁ :=
    ⟨hmem₁, .taken hflow₁ (by simp [htargets₁, hstart₁])⟩
  have hreturn : Relation.ReflTransGen (Graph.mk blocks [] ⟨1, true⟩).Leads b₁ b₂ :=
    .single ⟨hmem₂, .notTaken hflow₁ (by rw [hnext₁, hstart₂])⟩
  obtain ⟨p, hp, hstep⟩ := hsteps b₁ b₁ b₂ hreach hround hreturn hflow₂
  rw [hstart₁] at hstep
  exact ⟨is, blocks, hread, hblocks, paths, hpaths, ⟨p, hp, hstep⟩, b₁, hmem₁, hstart₁,
    (hsimulated b₁ b₂ hreach hreturn hflow₂).2⟩

end Provenance
