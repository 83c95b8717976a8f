import Mathlib.Algebra.Group.Action.Defs
import Mathlib.Algebra.Order.BigOperators.Group.List
import Mathlib.Computability.StateTransition
import Mathlib.Data.Set.Finite.Lattice
import Provenance.Instruction.Decode
import Provenance.Proofs.Exploration
import Provenance.Proofs.Partition

/-!
# The loop of an exploration ends

Exploring can be done with a queue: a turn of the loop takes the first visit and puts what is found
next at the end (`Graph.turn`). Nothing but the revisit limit bounds the number of turns. Every turn
keeps the visits that wait on paths from the entry (`Graph.Underway.turn`). Along such a path each
block is visited at most `revisitLimit + 1` times and at most one handler is recorded after each
visit, so paths are short (`Graph.Course.length_trail_le`). Hence the loop ends, and an exploration
is what it has done by then (`Graph.worklist_ends`): sweeping over a level is a number of turns
(`Graph.reaches_of_sweep_eq_ok`), and no level lies beyond the depth of the graph.
-/

namespace Provenance

/-- An exploration under way: the visits that wait, the first to be made first, the steps made so
far, the latest first, and the error that stopped it, if one did. -/
structure Worklist where
  queue : List Visit
  done : List Step
  fault? : Option Error

/-- The exploration as far as it has come. -/
def Worklist.exploration (w : Worklist) : Exploration :=
  ⟨w.done.reverse, w.fault?⟩

namespace Graph

open StateTransition (Reaches)

/-- A turn of the loop. There is none after an error, or if no visit waits. -/
def turn (g : Graph) (w : Worklist) : Option Worklist :=
  match w.fault?, w.queue with
  | none, v :: rest =>
    match g.expand v with
    | .ok x => some ⟨rest ++ x.next, ⟨v, x.ending?⟩ :: w.done, none⟩
    | .error e => some ⟨rest, ⟨v, none⟩ :: w.done, some e⟩
  | _, _ => none

/-- At the start the visit of a block waits. -/
def begin (entry : Block) : Worklist :=
  ⟨[⟨entry, [entry.start]⟩], [], none⟩

section

variable {g : Graph}

/-! ## Turns and levels -/

/-- A visit that can be expanded is made, and what is found next waits after all others. -/
theorem turn_of_expand_eq_ok {v : Visit} {x : Expansion} (h : g.expand v = .ok x)
    (rest : List Visit) (done : List Step) :
    g.turn ⟨v :: rest, done, none⟩ = some ⟨rest ++ x.next, ⟨v, x.ending?⟩ :: done, none⟩ := by
  simp only [turn, h]

/-- A visit that cannot be expanded is the last one. -/
theorem turn_of_expand_eq_error {v : Visit} {e : Error} (h : g.expand v = .error e)
    (rest : List Visit) (done : List Step) :
    g.turn ⟨v :: rest, done, none⟩ = some ⟨rest, ⟨v, none⟩ :: done, some e⟩ := by
  simp only [turn, h]

/-- Sweeping over a level makes its visits in turn, after which the next level waits. -/
theorem reaches_of_sweep_eq_ok {visits next found : List Visit} {done done' : List Step}
    (h : g.sweep visits done next = (done', .ok found)) :
    Reaches g.turn ⟨visits ++ next.reverse, done, none⟩ ⟨found, done', none⟩ ∧
      found = next.reverse ++ visits.flatMap g.next := by
  induction visits generalizing done next with
  | nil =>
    cases h
    exact ⟨.refl, (List.append_nil _).symm⟩
  | cons v rest ih =>
    rw [sweep] at h
    split at h
    · cases h
    · next x hx =>
      obtain ⟨hreaches, hfound⟩ := ih h
      rw [List.reverse_append, List.reverse_reverse, ← List.append_assoc] at hreaches
      refine ⟨.head (turn_of_expand_eq_ok hx _ _) hreaches, ?_⟩
      rw [hfound, List.reverse_append, List.reverse_reverse, List.flatMap_cons, List.append_assoc]
      simp only [Graph.next, hx]

/-- Sweeping over a level with an error makes the visits up to it in turn. -/
theorem reaches_of_sweep_eq_error {visits next : List Visit} {done done' : List Step} {e : Error}
    (h : g.sweep visits done next = (done', .error e)) :
    ∃ rest, Reaches g.turn ⟨visits ++ next.reverse, done, none⟩ ⟨rest, done', some e⟩ := by
  induction visits generalizing done next with
  | nil => cases h
  | cons v rest ih =>
    rw [sweep] at h
    split at h
    · next he =>
      cases h
      exact ⟨_, .single (turn_of_expand_eq_error he _ _)⟩
    · next x hx =>
      obtain ⟨last, hreaches⟩ := ih h
      rw [List.reverse_append, List.reverse_reverse, ← List.append_assoc] at hreaches
      exact ⟨last, .head (turn_of_expand_eq_ok hx _ _) hreaches⟩

/-- Walking over all levels that there are is what the loop does until it ends. -/
theorem exists_reaches_walk {depth : Nat} {visits : List Visit} (h : g.level visits depth = [])
    (done : List Step) :
    ∃ last, Reaches g.turn ⟨visits, done, none⟩ last ∧ g.turn last = none ∧
      g.walk depth visits done = last.exploration := by
  induction depth generalizing visits done with
  | zero =>
    cases h
    exact ⟨_, .refl, rfl, rfl⟩
  | succ depth ih =>
    rw [walk]
    split
    · next done' e hsweep =>
      obtain ⟨rest, hreaches⟩ := reaches_of_sweep_eq_error hsweep
      rw [List.reverse_nil, List.append_nil] at hreaches
      exact ⟨_, hreaches, rfl, rfl⟩
    · next done' hsweep =>
      obtain ⟨hreaches, -⟩ := reaches_of_sweep_eq_ok hsweep
      rw [List.reverse_nil, List.append_nil] at hreaches
      exact ⟨_, hreaches, rfl, rfl⟩
    · next done' found _ hsweep =>
      obtain ⟨hreaches, hfound⟩ := reaches_of_sweep_eq_ok hsweep
      rw [List.reverse_nil, List.append_nil] at hreaches
      rw [List.reverse_nil, List.nil_append] at hfound
      rw [level, ← hfound] at h
      obtain ⟨last, hlast, hend, hwalk⟩ := ih h done'
      exact ⟨last, hreaches.trans hlast, hend, hwalk⟩

/-! ## What waits in the queue -/

/-- The entry is a block of the graph. -/
theorem mem_blocks_of_entry {entry : Block} (h : g.entry = .ok entry) : entry ∈ g.blocks := by
  unfold Graph.entry at h
  split at h
  · cases h
  · split at h
    · next hfind =>
      cases h
      exact Array.mem_of_find?_eq_some hfind
    · cases h

/-- A path records at most two offsets for each visit. -/
theorem Course.length_trail_le {entry : Block} {v : Visit} {earlier : List Visit}
    (h : g.Course entry (v :: earlier)) (hb : entry ∈ g.blocks) :
    v.trail.length ≤ 2 * (g.settings.revisitLimit + 1) * g.blocks.size := by
  have hrecorded : (earlier.flatMap fun u => g.handlersAfter u ++ [u.block.start]).length ≤
      earlier.length * 2 := by
    rw [List.length_flatMap, ← smul_eq_mul, ← List.length_map]
    refine List.sum_le_card_nsmul _ 2 (List.forall_mem_map.mpr fun u _ => ?_)
    rw [List.length_append]
    exact Nat.succ_le_succ (g.length_handlersAfter_le u)
  have hvisits := h.length_le hb
  rw [List.length_cons] at hvisits
  rw [h.trail_eq, List.length_cons, Nat.mul_assoc]
  unfold depth at hvisits
  omega

/-- A turn makes the first visit that waits, and puts what is found next after the others. -/
theorem exists_of_mem_turn {w w' : Worklist} (h : w' ∈ g.turn w) :
    ∃ u rest, w.fault? = none ∧ w.queue = u :: rest ∧ w'.queue = rest ++ g.next u ∧
      w'.done = g.step u :: w.done := by
  obtain ⟨queue, done, fault?⟩ := w
  cases fault? with
  | some e => cases h
  | none =>
    cases queue with
    | nil => cases h
    | cons u rest =>
      refine ⟨u, rest, rfl, rfl, ?_⟩
      cases hx : g.expand u with
      | error e =>
        rw [turn_of_expand_eq_error hx] at h
        cases h
        simp only [Graph.next, step, hx, List.append_nil, and_self]
      | ok x =>
        rw [turn_of_expand_eq_ok hx] at h
        cases h
        simp only [Graph.next, step, hx, and_self]

/-- The visits that wait are the latest of paths from the entry, whose earlier visits were made. -/
def Underway (g : Graph) (entry : Block) (w : Worklist) : Prop :=
  ∀ v ∈ w.queue, ∃ earlier, g.Course entry (v :: earlier) ∧
    ∀ u ∈ earlier, u ∈ w.done.map Step.visit

/-- A turn keeps what waits on paths from the entry. -/
theorem Underway.turn {entry : Block} {w w' : Worklist} (h : g.Underway entry w)
    (hturn : w' ∈ g.turn w) : g.Underway entry w' := by
  obtain ⟨u, rest, -, hqueue, hqueue', hdone⟩ := exists_of_mem_turn hturn
  have hmade : w'.done.map Step.visit = u :: w.done.map Step.visit := by
    rw [hdone, List.map_cons, step_visit]
  intro v hv
  rw [hmade]
  rw [hqueue'] at hv
  rcases List.mem_append.mp hv with hwaited | hnext
  · obtain ⟨earlier, hcourse, hearlier⟩ := h v (hqueue ▸ List.mem_cons_of_mem _ hwaited)
    exact ⟨earlier, hcourse, fun t ht => List.mem_cons_of_mem _ (hearlier t ht)⟩
  · -- The visit just made is the one before on the path.
    obtain ⟨earlier, hcourse, hearlier⟩ := h u (hqueue ▸ List.mem_cons_self ..)
    exact ⟨u :: earlier, .next hcourse hnext, List.cons_subset_cons _ hearlier⟩

/-- The loop keeps what waits on paths from the entry. -/
theorem underway_of_reaches {entry : Block} {w : Worklist}
    (h : Reaches g.turn (begin entry) w) : g.Underway entry w := by
  induction h with
  | refl =>
    intro v hv
    cases List.mem_singleton.mp hv
    exact ⟨[], .start, List.forall_mem_nil _⟩
  | tail _ hturn ih => exact ih.turn hturn

end

/-- A loop that ends gets to finitely many states. -/
theorem finite_of_reaches {σ : Type} {f : σ → Option σ} {a last : σ} (h : Reaches f a last)
    (hend : f last = none) : {b | Reaches f a b}.Finite := by
  induction h using Relation.ReflTransGen.head_induction_on with
  | refl =>
    refine (Set.finite_singleton last).subset fun b hb => ?_
    rcases Relation.ReflTransGen.cases_head hb with heq | ⟨c, hc, -⟩
    · exact heq.symm
    · rw [hend] at hc
      cases hc
  | @head a c hac _ ih =>
    refine (ih.insert a).subset fun b hb => ?_
    rcases Relation.ReflTransGen.cases_head hb with heq | ⟨d, hd, hdb⟩
    · exact .inl heq.symm
    · cases Option.mem_unique hac hd
      exact .inr hdb

/-- The loop of an exploration ends, with any blocks, clauses and settings, and the exploration is
what it has done by then; so only finitely many visits ever wait. A visit that waits is the latest
of a path from the entry whose earlier visits were made. Along such a path no block is visited more
than `revisitLimit + 1` times, and what it records are the starts of the visited blocks and at most
one handler after each visit, so it is not longer than twice the visits that there can be. -/
theorem worklist_ends {g : Graph} {entry : Block} (h : g.entry = .ok entry) :
    (∃ last, Reaches g.turn (begin entry) last ∧ g.turn last = none ∧
        g.explore entry = last.exploration) ∧
      {v | ∃ w, Reaches g.turn (begin entry) w ∧ v ∈ w.queue}.Finite ∧
      ∀ w, Reaches g.turn (begin entry) w → ∀ v ∈ w.queue,
        (∃ earlier, g.Course entry (v :: earlier) ∧ ∀ u ∈ earlier, u ∈ w.done.map Step.visit) ∧
        ∀ earlier, g.Course entry (v :: earlier) →
          (∀ s, ((v :: earlier).map (·.block.start)).count s ≤ g.settings.revisitLimit + 1) ∧
          (∀ u ∈ earlier, (g.handlersAfter u).length ≤ 1) ∧
          v.trail = v.block.start ::
            (earlier.flatMap fun u => g.handlersAfter u ++ [u.block.start]) ∧
          v.trail.length ≤ 2 * (g.settings.revisitLimit + 1) * g.blocks.size := by
  have hb : entry ∈ g.blocks := mem_blocks_of_entry h
  have hlevel : g.level [⟨entry, [entry.start]⟩] g.depth = [] := by
    refine List.eq_nil_iff_forall_not_mem.mpr fun v hv => ?_
    exact Nat.lt_irrefl _ (lt_depth_of_mem_level hb hv)
  obtain ⟨last, hlast, hend, hexplore⟩ := exists_reaches_walk hlevel []
  refine ⟨⟨last, hlast, hend, hexplore⟩, ?_, fun w hw v hv => ?_⟩
  · have hstates := finite_of_reaches hlast hend
    refine (hstates.biUnion fun w _ => w.queue.finite_toSet).subset fun v hv => ?_
    obtain ⟨w, hw, hv⟩ := hv
    exact Set.mem_biUnion hw hv
  · refine ⟨underway_of_reaches hw v hv, fun earlier hcourse => ?_⟩
    exact ⟨hcourse.count_le, fun u _ => g.length_handlersAfter_le u, hcourse.trail_eq,
      hcourse.length_trail_le hb⟩

/-- A loop around a range that is left through a finally handler: the body has an entry, its
exploration ends, and no path that waits records more than twenty-four offsets. -/
theorem worklist_ends_finally_loop :
    ∃ is blocks entry,
      Body.decode Body.guardedLoop = .ok is ∧
      Block.partition is 8 [Body.loopFinally] = .ok blocks ∧ blocks.size = 4 ∧
      (Graph.mk blocks [Body.loopFinally] ⟨2, true⟩).entry = .ok entry ∧
      (∃ last, Reaches (Graph.mk blocks [Body.loopFinally] ⟨2, true⟩).turn (begin entry) last ∧
        (Graph.mk blocks [Body.loopFinally] ⟨2, true⟩).turn last = none ∧
        (Graph.mk blocks [Body.loopFinally] ⟨2, true⟩).explore entry = last.exploration) ∧
      ∀ w, Reaches (Graph.mk blocks [Body.loopFinally] ⟨2, true⟩).turn (begin entry) w →
        ∀ v ∈ w.queue, v.trail.length ≤ 24 := by
  have hok : ((Body.decode Body.guardedLoop).bind fun is =>
      (Block.partition is 8 [Body.loopFinally]).bind fun blocks =>
        (Graph.mk blocks [Body.loopFinally] ⟨2, true⟩).entry.bind fun _ =>
          .ok blocks.size) = .ok 4 := by cbv
  obtain ⟨is, hread, hok⟩ := bind_eq_ok_iff.mp hok
  obtain ⟨blocks, hblocks, hok⟩ := bind_eq_ok_iff.mp hok
  obtain ⟨entry, hentry, hok⟩ := bind_eq_ok_iff.mp hok
  have hsize : blocks.size = 4 := Except.ok.inj hok
  obtain ⟨hends, -, hqueue⟩ := worklist_ends hentry
  refine ⟨is, blocks, entry, hread, hblocks, hsize, hentry, hends, fun w hw v hv => ?_⟩
  obtain ⟨⟨earlier, hcourse, -⟩, hbound⟩ := hqueue w hw v hv
  obtain ⟨-, -, -, hlength⟩ := hbound earlier hcourse
  rwa [hsize] at hlength

end Graph

end Provenance
