import Provenance.Proofs.EdgeQueries
import Provenance.Proofs.Partition
import Provenance.Proofs.Replay
import Provenance.Proofs.Simulation

/-!
# Replays that record at the same time

Replays may record their edges into one set at the same time. Each of them records its own edges in
order, one edge at a time, and at each step any of them can be the next (`Recording.Step`). What has
been recorded and what is still to be recorded are always the edges of all replays
(`Recording.exists_recorded`), so at the end the set was built from the same edges as by one replay
after the other, only in another order. No question and no text can tell the two apart
(`Simulation.interleaving_irrelevant`).
-/

namespace Provenance

/-- Replays that record at the same time. -/
structure Recording where
  /-- What each replay still has to record, in order. -/
  pending : List (List Edge)
  /-- What has been recorded. -/
  edges : EdgeSet

namespace Recording

/-- One of the replays records its next edge. -/
inductive Step : Recording → Recording → Prop
  | record {before after : List (List Edge)} {e : Edge} {rest : List Edge} {edges : EdgeSet} :
      Step ⟨before ++ (e :: rest) :: after, edges⟩ ⟨before ++ rest :: after, edges.insert e⟩

/-- Every replay has recorded all of its edges. -/
def Done (r : Recording) : Prop :=
  ∀ rest ∈ r.pending, rest = []

variable {r r' : Recording}

/-- A step records one of the edges that were pending. -/
theorem Step.exists_edge (h : Step r r') :
    ∃ e, r'.edges = r.edges.insert e ∧ r.pending.flatten.Perm (e :: r'.pending.flatten) := by
  cases h with
  | @record before after e rest edges =>
    refine ⟨e, rfl, ?_⟩
    rw [List.flatten_append, List.flatten_append, List.flatten_cons, List.flatten_cons,
      List.cons_append]
    exact List.perm_middle

/-- In any number of steps, some of the edges that were pending are recorded in some order, and the
others are still pending. -/
theorem exists_recorded (h : Relation.ReflTransGen Step r r') :
    ∃ recorded, r'.edges = r.edges.insertAll recorded ∧
      r.pending.flatten.Perm (recorded ++ r'.pending.flatten) := by
  induction h using Relation.ReflTransGen.head_induction_on with
  | refl => exact ⟨[], rfl, .refl _⟩
  | head hstep _ ih =>
    obtain ⟨e, hedges, hpending⟩ := hstep.exists_edge
    obtain ⟨recorded, hrecorded, hrest⟩ := ih
    refine ⟨e :: recorded, ?_, hpending.trans (hrest.cons e)⟩
    rw [hrecorded, hedges]
    rfl

/-- When all replays are done, everything that was pending has been recorded in some order. -/
theorem exists_perm_of_done (h : Relation.ReflTransGen Step r r') (hdone : r'.Done) :
    ∃ recorded, r'.edges = r.edges.insertAll recorded ∧ recorded.Perm r.pending.flatten := by
  obtain ⟨recorded, hedges, hpending⟩ := exists_recorded h
  rw [List.flatten_eq_nil_iff.mpr hdone, List.append_nil] at hpending
  exact ⟨recorded, hedges, hpending.symm⟩

end Recording

namespace Simulation

/-- The order of the paths and the interleaving of their replays are irrelevant. If every path can
be replayed, the paths are taken in any order, and the replays record their edges into an empty set
at the same time until all are done, then the set answers every question as the one that replaying
the paths one after the other gives. It holds the edges that the paths yield alone, and whatever is
written from it is the same text. -/
theorem interleaving_irrelevant {resolver : Resolver} {blocks : Array Block}
    {paths order : List Path} {r : Recording}
    (hreplays : ∀ p ∈ paths, ∃ stack, (Replay.path resolver blocks p).outcome = .ok stack)
    (horder : order.Perm paths)
    (hsteps : Relation.ReflTransGen Recording.Step
      ⟨order.map (Replay.records resolver blocks), .empty⟩ r)
    (hdone : r.Done) :
    ∃ edges, (run resolver blocks .empty paths).outcome = .ok edges ∧
      r.edges.SameAnswers edges ∧
      (∀ e, e ∈ r.edges.toList ↔ ∃ p ∈ paths, ∃ alone,
        (run resolver blocks .empty [p]).outcome = .ok alone ∧ e ∈ alone.toList) ∧
      ∀ (instructions : List Instruction) (names : Resolver),
        (View.ofList instructions r.edges names).SameTexts
          (View.ofList instructions edges names) := by
  have hfaults : ∀ p ∈ paths, (Replay.path resolver blocks p).fault? = none := by
    intro p hp
    obtain ⟨stack, hstack⟩ := hreplays p hp
    exact (Replay.outcome_eq_ok_iff.mp hstack).1
  obtain ⟨recorded, hedges, hrecorded⟩ := Recording.exists_perm_of_done hsteps hdone
  have hperm : recorded.Perm (paths.flatMap (Replay.records resolver blocks)) := by
    rw [List.flatMap_def]
    exact hrecorded.trans (horder.map _).flatten
  have hsame : r.edges.SameGroups
      (EdgeSet.empty.insertAll (paths.flatMap (Replay.records resolver blocks))) := by
    rw [hedges]
    exact EdgeSet.sameGroups_insertAll fun e => hperm.mem_iff
  have houtcome := outcome_run_of_replays hfaults
  refine ⟨_, houtcome, hsame.sameAnswers, fun e => ?_,
    fun instructions names => View.sameTexts_of_sameGroups hsame⟩
  rw [hsame.sameAnswers.toList, mem_toList_iff_exists_alone houtcome]

/-- A body with two ways to its return, which takes a value from either. The paths are
`[0, 6, 7]` and `[0, 3, 7]`; the second one is started first, and the first one overtakes it. -/
theorem interleaving_irrelevant_overtaking :
    ∃ is blocks, Body.decode Body.choice = .ok is ∧
      Block.partition is 8 [] = .ok blocks ∧
      ∃ r edges, Relation.ReflTransGen Recording.Step
          ⟨[⟨[0, 3, 7]⟩, ⟨[0, 6, 7]⟩].map (Replay.records .unknown blocks), .empty⟩ r ∧
        r = ⟨[[], []], EdgeSet.empty.insertAll
          [⟨1, 0, 0⟩, ⟨1, 0, 0⟩, ⟨7, 0, 6⟩, ⟨7, 0, 3⟩]⟩ ∧
        (run .unknown blocks .empty [⟨[0, 6, 7]⟩, ⟨[0, 3, 7]⟩]).outcome = .ok edges ∧
        r.edges.SameAnswers edges ∧
        (∀ e, e ∈ r.edges.toList ↔ ∃ p ∈ [Path.mk [0, 6, 7], ⟨[0, 3, 7]⟩], ∃ alone,
          (run .unknown blocks .empty [p]).outcome = .ok alone ∧ e ∈ alone.toList) ∧
        ∀ (instructions : List Instruction) (names : Resolver),
          (View.ofList instructions r.edges names).SameTexts
            (View.ofList instructions edges names) := by
  have hok : ((Body.decode Body.choice).bind fun is =>
      (Block.partition is 8 []).bind fun blocks =>
        (Replay.path .unknown blocks ⟨[0, 6, 7]⟩).outcome.bind fun first =>
          (Replay.path .unknown blocks ⟨[0, 3, 7]⟩).outcome.bind fun second =>
            .ok (Replay.records .unknown blocks ⟨[0, 6, 7]⟩,
              Replay.records .unknown blocks ⟨[0, 3, 7]⟩)) =
      .ok ([⟨1, 0, 0⟩, ⟨7, 0, 6⟩], [⟨1, 0, 0⟩, ⟨7, 0, 3⟩]) := by cbv
  obtain ⟨is, hread, hok⟩ := bind_eq_ok_iff.mp hok
  obtain ⟨blocks, hblocks, hok⟩ := bind_eq_ok_iff.mp hok
  obtain ⟨first, hfirst, hok⟩ := bind_eq_ok_iff.mp hok
  obtain ⟨second, hsecond, hok⟩ := bind_eq_ok_iff.mp hok
  obtain ⟨hrecords, hrecords'⟩ := Prod.mk.inj (Except.ok.inj hok)
  have hsteps : Relation.ReflTransGen Recording.Step
      ⟨[⟨[0, 3, 7]⟩, ⟨[0, 6, 7]⟩].map (Replay.records .unknown blocks), .empty⟩
      ⟨[[], []], EdgeSet.empty.insertAll [⟨1, 0, 0⟩, ⟨1, 0, 0⟩, ⟨7, 0, 6⟩, ⟨7, 0, 3⟩]⟩ := by
    rw [List.map_cons, List.map_cons, List.map_nil, hrecords, hrecords']
    refine .head (@Recording.Step.record [[⟨1, 0, 0⟩, ⟨7, 0, 3⟩]] [] ⟨1, 0, 0⟩ [⟨7, 0, 6⟩] _) ?_
    refine .head (@Recording.Step.record [] [[⟨7, 0, 6⟩]] ⟨1, 0, 0⟩ [⟨7, 0, 3⟩] _) ?_
    refine .head (@Recording.Step.record [[⟨7, 0, 3⟩]] [] ⟨7, 0, 6⟩ [] _) ?_
    exact .single (@Recording.Step.record [] [[]] ⟨7, 0, 3⟩ [] _)
  have hreplays : ∀ p ∈ [Path.mk [0, 6, 7], ⟨[0, 3, 7]⟩],
      ∃ stack, (Replay.path .unknown blocks p).outcome = .ok stack := by
    intro p hp
    rcases List.mem_pair.mp hp with rfl | rfl
    · exact ⟨first, hfirst⟩
    · exact ⟨second, hsecond⟩
  obtain ⟨edges, houtcome, hsame⟩ :=
    interleaving_irrelevant hreplays (.swap _ _ _) hsteps (by simp [Recording.Done])
  exact ⟨is, blocks, hread, hblocks, _, edges, hsteps, rfl, houtcome, hsame⟩

end Simulation

end Provenance
