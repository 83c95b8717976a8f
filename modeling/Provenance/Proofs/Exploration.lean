import Mathlib.Algebra.Order.BigOperators.Group.Finset
import Mathlib.Algebra.BigOperators.Group.Finset.Basic
import Provenance.Proofs.Extension
import Provenance.Proofs.PathKey

/-!
# What an exploration visits

An exploration makes its visits level by level: the first level is the entry, and each level holds
what is found next from the one before (`Graph.level`). A path is a course of visits
(`Graph.Course`), along which a block is visited at most `revisitLimit + 1` times
(`Graph.Course.count_le`). So there are no levels beyond `Graph.depth`
(`Graph.lt_depth_of_mem_level`) and the exploration makes every visit there is. In a well-formed
graph the visits are those that the rules derive from the entry (`Graph.Admissible`).
-/

namespace Provenance

namespace Graph

/-- The visits of the paths that the rules allow. -/
inductive Admissible (g : Graph) : Visit → Prop
  /-- A path starts at the entry of the method. -/
  | entry {b : Block} (mem : b ∈ g.blocks) (entry : b.isEntry) : Admissible g ⟨b, [b.start]⟩
  /-- A path that is under way goes on. -/
  | extend {v w : Visit} (admissible : Admissible g v) (extend : g.Extends v w) : Admissible g w

/-! ## Levels -/

/-- What is found next from a visit. -/
def next (g : Graph) (v : Visit) : List Visit :=
  match g.expand v with
  | .ok x => x.next
  | .error _ => []

/-- The step that a visit is. -/
def step (g : Graph) (v : Visit) : Step :=
  match g.expand v with
  | .ok x => ⟨v, x.ending?⟩
  | .error _ => ⟨v, none⟩

/-- The visits that are `n` levels after the given ones. -/
def level (g : Graph) (visits : List Visit) : Nat → List Visit
  | 0 => visits
  | n + 1 => g.level (visits.flatMap g.next) n

section

variable {g : Graph}

/-- Nothing comes after nothing. -/
@[simp] theorem level_nil : ∀ n, g.level [] n = []
  | 0 => rfl
  | n + 1 => level_nil n

/-- The next level holds what is found next from a level. -/
theorem level_succ (visits : List Visit) (n : Nat) :
    g.level visits (n + 1) = (g.level visits n).flatMap g.next := by
  induction n generalizing visits with
  | zero => rfl
  | succ n ih => exact ih _

/-- Sweeping over visits that can all be expanded makes each of them. -/
theorem sweep_eq {visits : List Visit} (h : ∀ v ∈ visits, ∃ x, g.expand v = .ok x)
    (done : List Step) (found : List Visit) :
    g.sweep visits done found =
      ((visits.map g.step).reverse ++ done, .ok (found.reverse ++ visits.flatMap g.next)) := by
  induction visits generalizing done found with
  | nil => simp [sweep]
  | cons v rest ih =>
    obtain ⟨x, hx⟩ := h v (List.mem_cons_self ..)
    simp only [sweep, hx, ih fun v hv => h v (List.mem_cons_of_mem _ hv)]
    simp [step, next, hx]

/-- Walking makes the visits of the levels one after the other, if all of them can be expanded. -/
theorem walk_eq {depth : Nat} {visits : List Visit}
    (h : ∀ n < depth, ∀ v ∈ g.level visits n, ∃ x, g.expand v = .ok x) (done : List Step) :
    g.walk depth visits done =
      ⟨done.reverse ++ (List.range depth).flatMap fun n => (g.level visits n).map g.step,
        none⟩ := by
  induction depth generalizing visits done with
  | zero => simp [walk]
  | succ depth ih =>
    have hlevels : (List.range (depth + 1)).flatMap (fun n => (g.level visits n).map g.step) =
        visits.map g.step ++ (List.range depth).flatMap fun n =>
          (g.level (visits.flatMap g.next) n).map g.step := by
      simp only [List.range_succ_eq_map, List.flatMap_cons, List.flatMap_map, level]
    have hvisits : ∀ v ∈ visits, ∃ x, g.expand v = .ok x := h 0 (Nat.succ_pos _)
    have hnext := ih (fun n hn => h (n + 1) (Nat.succ_lt_succ hn))
      ((visits.map g.step).reverse ++ done)
    rw [walk, sweep_eq hvisits, hlevels]
    cases hfound : visits.flatMap g.next with
    | nil => simp
    | cons w rest =>
      rw [hfound] at hnext
      simpa using hnext

/-- What is found next extends the path. -/
theorem Extends.of_mem_next {v w : Visit} (hw : w ∈ g.next v) : g.Extends v w := by
  unfold next at hw
  split at hw
  · next hx => exact extends_of_mem_next hx hw
  · cases hw

/-- A level of visits that the rules allow has only such visits. -/
theorem Admissible.of_mem_level {visits : List Visit} (h : ∀ v ∈ visits, g.Admissible v) {n : Nat}
    {v : Visit} (hv : v ∈ g.level visits n) : g.Admissible v := by
  induction n generalizing visits with
  | zero => exact h v hv
  | succ n ih =>
    refine ih (fun w hw => ?_) hv
    obtain ⟨u, hu, hw⟩ := List.mem_flatMap.mp hw
    exact .extend (h u hu) (.of_mem_next hw)

end

/-! ## The bound on the number of levels -/

/-- The handlers that a path records after a visit. -/
def handlersAfter (g : Graph) (v : Visit) : List Nat :=
  match v.block.last.flow, v.block.last.branchTarget? with
  | .unconditionalBranch, some t =>
    ((g.leftFinally? v.block.last.offset t).map Clause.handlerStart).toList
  | _, _ => []

/-- At most one handler is recorded after a visit. -/
theorem length_handlersAfter_le (g : Graph) (v : Visit) : (g.handlersAfter v).length ≤ 1 := by
  unfold handlersAfter
  split
  · exact Option.length_toList_le
  · exact Nat.zero_le 1

/-- An extension enters a block, after the handlers on the way. -/
theorem Extends.enters {g : Graph} {v w : Visit} (h : g.Extends v w) :
    g.Enters (g.handlersAfter v ++ v.trail) w.block.start w := by
  cases h with
  | @branch t handlers flow target crosses enters =>
    have hhandlers : g.handlersAfter v = handlers := by
      simp only [handlersAfter, flow, target]
      exact (crosses_iff.mp crosses).symm
    rw [hhandlers]
    exact enters.start ▸ enters
  | taken flow _ enters | notTaken flow enters | caught flow _ enters =>
    have hhandlers : g.handlersAfter v = [] := by simp only [handlersAfter, flow]
    rw [hhandlers]
    exact enters.start ▸ enters
  | onward flow enters =>
    have hhandlers : g.handlersAfter v = [] := by
      unfold handlersAfter
      split
      · next hflow _ => simp [hflow] at flow
      · rfl
    rw [hhandlers]
    exact enters.start ▸ enters

/-- The visits of a path from its first one on, the latest first. -/
inductive Course (g : Graph) (entry : Block) : List Visit → Prop
  /-- A path starts with the visit of a block. -/
  | start : Course g entry [⟨entry, [entry.start]⟩]
  /-- It goes on with what is found next from the latest visit. -/
  | next {v w : Visit} {earlier : List Visit} (course : Course g entry (v :: earlier))
      (next : w ∈ g.next v) : Course g entry (w :: v :: earlier)

namespace Course

variable {g : Graph} {entry : Block}

/-- The visits of a path are visits of blocks of the graph. -/
theorem mem_blocks {visits : List Visit} (h : g.Course entry visits) (hb : entry ∈ g.blocks) :
    ∀ v ∈ visits, v.block ∈ g.blocks := by
  induction h with
  | start =>
    intro v hv
    cases List.mem_singleton.mp hv
    exact hb
  | next _ hnext ih => exact List.forall_mem_cons.mpr ⟨(Extends.of_mem_next hnext).enters.mem, ih⟩

/-- What a path records: the starts of the blocks that it visits and, after each visit but the
latest, the handlers on the way. -/
theorem trail_eq {v : Visit} {earlier : List Visit} (h : g.Course entry (v :: earlier)) :
    v.trail = v.block.start ::
      earlier.flatMap fun u => g.handlersAfter u ++ [u.block.start] := by
  induction earlier generalizing v with
  | nil =>
    cases h
    rfl
  | cons u earlier ih =>
    cases h with
    | next hu hnext =>
      rw [(Extends.of_mem_next hnext).enters.trail_eq, ih hu, List.flatMap_cons, List.append_assoc]
      rfl

/-- The starts of the visited blocks are part of what a path records. -/
theorem sublist_trail {v : Visit} {earlier : List Visit} (h : g.Course entry (v :: earlier)) :
    ((v :: earlier).map (·.block.start)).Sublist v.trail := by
  rw [h.trail_eq, List.map_cons, List.map_eq_flatMap]
  refine List.Sublist.cons_cons _ ?_
  clear h
  induction earlier with
  | nil => exact .slnil
  | cons u earlier ih =>
    rw [List.flatMap_cons, List.flatMap_cons]
    exact (List.sublist_append_right ..).append ih

/-- A path visits no block more often than the revisit limit and once more. -/
theorem count_le {visits : List Visit} (h : g.Course entry visits) (s : Nat) :
    (visits.map (·.block.start)).count s ≤ g.settings.revisitLimit + 1 := by
  induction h with
  | start => exact Nat.le_trans List.count_le_length (Nat.succ_le_succ (Nat.zero_le _))
  | @next v w earlier hv hnext ih =>
    rw [List.map_cons, List.count_cons]
    split
    · next heq =>
      -- The block was entered, so the path had recorded it at most `revisitLimit` times.
      have henters := (Extends.of_mem_next hnext).enters
      cases eq_of_beq heq
      have hsub : ((v :: earlier).map (·.block.start)).Sublist (g.handlersAfter v ++ v.trail) :=
        hv.sublist_trail.trans (List.sublist_append_right ..)
      exact Nat.succ_le_succ (Nat.le_trans (hsub.count_le _) henters.admitted)
    · exact ih

end Course

/-- A list without many repetitions is not longer than its elements allow. -/
theorem length_le_of_count_le {l values : List Nat} {m : Nat} (hmem : ∀ s ∈ l, s ∈ values)
    (hcount : ∀ s, l.count s ≤ m) : l.length ≤ m * values.length := by
  rw [← List.sum_toFinset_count_eq_length l]
  calc ∑ s ∈ l.toFinset, l.count s ≤ l.toFinset.card * m :=
        Finset.sum_le_card_nsmul _ _ m fun s _ => hcount s
    _ ≤ values.length * m := by
        refine Nat.mul_le_mul_right m
          (Nat.le_trans (Finset.card_le_card ?_) values.toFinset_card_le)
        exact fun s hs => List.mem_toFinset.mpr (hmem s (List.mem_toFinset.mp hs))
    _ = m * values.length := Nat.mul_comm ..

/-- A path makes at most `depth` visits. -/
theorem Course.length_le {g : Graph} {entry : Block} {visits : List Visit}
    (h : g.Course entry visits) (hb : entry ∈ g.blocks) : visits.length ≤ g.depth := by
  have hmem : ∀ s ∈ visits.map (·.block.start), s ∈ g.blocks.toList.map Block.start := by
    intro s hs
    obtain ⟨v, hv, rfl⟩ := List.mem_map.mp hs
    exact List.mem_map_of_mem (Array.mem_toList_iff.mpr (h.mem_blocks hb v hv))
  simpa [depth] using length_le_of_count_le hmem h.count_le

/-- The visits of a level are the latest of a path with one visit in each level up to it. -/
theorem exists_course_of_mem_level {g : Graph} {b : Block} {n : Nat} {v : Visit}
    (hv : v ∈ g.level [⟨b, [b.start]⟩] n) :
    ∃ earlier, g.Course b (v :: earlier) ∧ earlier.length = n := by
  induction n generalizing v with
  | zero =>
    cases List.mem_singleton.mp hv
    exact ⟨[], .start, rfl⟩
  | succ n ih =>
    rw [level_succ] at hv
    obtain ⟨u, hu, hnext⟩ := List.mem_flatMap.mp hv
    obtain ⟨earlier, hcourse, hlength⟩ := ih hu
    exact ⟨u :: earlier, .next hcourse hnext, congrArg Nat.succ hlength⟩

/-- No level from the entry on lies beyond the depth of the graph. -/
theorem lt_depth_of_mem_level {g : Graph} {b : Block} (hb : b ∈ g.blocks) {n : Nat} {v : Visit}
    (hv : v ∈ g.level [⟨b, [b.start]⟩] n) : n < g.depth := by
  obtain ⟨earlier, hcourse, rfl⟩ := exists_course_of_mem_level hv
  exact hcourse.length_le hb

/-! ## The visits of a well-formed graph -/

/-- A path that the rules allow stays in the graph. -/
theorem Admissible.mem_blocks {g : Graph} {v : Visit} (h : g.Admissible v) :
    v.block ∈ g.blocks := by
  cases h with
  | entry mem _ => exact mem
  | extend _ hext => exact hext.enters.mem

namespace WellFormed

variable {g : Graph}

/-- What is found next in a well-formed graph. -/
theorem mem_next (hg : g.WellFormed) {v w : Visit} (hv : v.block ∈ g.blocks) :
    w ∈ g.next v ↔ g.Extends v w := by
  obtain ⟨x, hx, hnext, -⟩ := hg.expand_spec hv
  simp only [next, hx, hnext]

/-- The visits that the rules allow are those of the levels. -/
theorem exists_mem_level (hg : g.WellFormed) {b : Block}
    (hb : ∀ {b' : Block}, (b' ∈ g.blocks ∧ b'.isEntry) ↔ b' = b) {v : Visit}
    (h : g.Admissible v) : ∃ n, v ∈ g.level [⟨b, [b.start]⟩] n := by
  induction h with
  | entry mem entry =>
    cases hb.mp ⟨mem, entry⟩
    exact ⟨0, List.mem_singleton_self _⟩
  | extend hv hext ih =>
    obtain ⟨n, hn⟩ := ih
    refine ⟨n + 1, ?_⟩
    rw [level_succ]
    exact List.mem_flatMap.mpr ⟨_, hn, (hg.mem_next hv.mem_blocks).mpr hext⟩

/-- The levels from the entry on hold visits that the rules allow. -/
theorem admissible_of_mem_level {b : Block}
    (hb : ∀ {b' : Block}, (b' ∈ g.blocks ∧ b'.isEntry) ↔ b' = b) {n : Nat} {v : Visit}
    (hv : v ∈ g.level [⟨b, [b.start]⟩] n) : g.Admissible v := by
  refine Admissible.of_mem_level (fun w hw => ?_) hv
  cases List.mem_singleton.mp hw
  exact .entry (hb.mpr rfl).1 (hb.mpr rfl).2

/-- Exploring a well-formed graph succeeds and makes the visits of the levels one after the
other. -/
theorem explore_eq (hg : g.WellFormed) {b : Block}
    (hb : ∀ {b' : Block}, (b' ∈ g.blocks ∧ b'.isEntry) ↔ b' = b) :
    g.explore b =
      ⟨(List.range g.depth).flatMap fun n => (g.level [⟨b, [b.start]⟩] n).map g.step, none⟩ := by
  refine walk_eq (fun n _ v hv => ?_) []
  obtain ⟨x, hx, -⟩ := hg.expand_spec (admissible_of_mem_level hb hv).mem_blocks
  exact ⟨x, hx⟩

/-- Exploring a well-formed graph succeeds, and its steps are the visits that the rules allow. -/
theorem explore_spec (hg : g.WellFormed) {b : Block}
    (hb : ∀ {b' : Block}, (b' ∈ g.blocks ∧ b'.isEntry) ↔ b' = b) :
    (g.explore b).fault? = none ∧
      ∀ step, step ∈ (g.explore b).steps ↔ ∃ v, g.Admissible v ∧ step = g.step v := by
  rw [hg.explore_eq hb]
  refine ⟨rfl, fun step => ?_⟩
  simp only [List.mem_flatMap, List.mem_range, List.mem_map]
  constructor
  · rintro ⟨n, -, v, hv, rfl⟩
    exact ⟨v, admissible_of_mem_level hb hv, rfl⟩
  · rintro ⟨v, hv, rfl⟩
    obtain ⟨n, hn⟩ := hg.exists_mem_level hb hv
    exact ⟨n, lt_depth_of_mem_level (hb.mpr rfl).1 hn, v, hn, rfl⟩

/-- The step of a visit is a return exactly if the last instruction of its block is. -/
theorem step_ending?_eq (hg : g.WellFormed) {v : Visit} (hv : v.block ∈ g.blocks) :
    (g.step v).ending? = some .returned ↔ v.block.last.flow = .returns := by
  obtain ⟨x, hx, -, hending⟩ := hg.expand_spec hv
  simp only [step, hx, hending]

end WellFormed

/-- The step of a visit makes that visit. -/
theorem step_visit (g : Graph) (v : Visit) : (g.step v).visit = v := by
  unfold step
  split <;> rfl

end Graph

end Provenance
