import Provenance.Proofs.BarePaths
import Provenance.Proofs.Repetition

/-!
# The order in which paths are found

Paths are listed in the order of discovery (`Graph.paths_breadthFirst`): paths that visit fewer
blocks come first (`Graph.Sooner`), and of two paths that visit equally many the one that parts from
the other towards a successor that is tried first (`Graph.Parts`). A level can hold a visit several
times, since what follows a branch can be one of its targets too. Only the first of them counts, so
all statements are about levels without their repetitions. The visits of a level come in this order
because those of the level before do and different visits have nothing in common that is found next
(`Graph.WellFormed.pairwise_eraseDups_level`).
-/

namespace Provenance

/-- In a list that is ordered by an asymmetric relation, places and relation tell the same. -/
theorem lt_iff_of_pairwise {α : Type} {R : α → α → Prop} {l : List α} (h : l.Pairwise R)
    (asymm : ∀ a b, R a b → ¬ R b a) {i j : Nat} {a b : α} (ha : l[i]? = some a)
    (hb : l[j]? = some b) : i < j ↔ R a b := by
  obtain ⟨hi, rfl⟩ := List.getElem?_eq_some_iff.mp ha
  obtain ⟨hj, rfl⟩ := List.getElem?_eq_some_iff.mp hb
  refine ⟨List.pairwise_iff_getElem.mp h i j hi hj, fun hR => ?_⟩
  rcases Nat.lt_trichotomy i j with hlt | rfl | hgt
  · exact hlt
  · exact absurd hR (asymm _ _ hR)
  · exact absurd hR (asymm _ _ (List.pairwise_iff_getElem.mp h j i hj hi hgt))

/-! ## Which of two paths comes first -/

/-- A block goes on at `m` before it goes on at `n`. It ends with a conditional branch, whose
targets are tried in the order in which its table names them for the first time. What follows the
branch has the place after the whole table, unless it is a target too. -/
structure Block.Tries (b : Block) (m n : Nat) : Prop where
  flow : b.last.flow = .conditionalBranch
  first : m ∈ b.last.targets
  second : n ∈ b.last.targets ∨ n = b.last.next
  order : b.last.targets.idxOf m < b.last.targets.idxOf n

namespace Graph

/-- The offsets at which a path visits blocks. -/
def stops (g : Graph) (p : Path) : List Nat :=
  if g.settings.modelFinally then g.visited p.starts else p.starts

/-- The first step at which two lists of visited offsets differ is one after a block that they
share, and the block goes on as the first list does before it goes on as the second does. -/
inductive Parts (g : Graph) : List Nat → List Nat → Prop
  | here {b : Block} {o m n : Nat} {s t : List Nat} (mem : b ∈ g.blocks) (start : b.start = o)
      (tries : b.Tries m n) : Parts g (o :: m :: s) (o :: n :: t)
  | later {o : Nat} {s t : List Nat} (parts : Parts g s t) : Parts g (o :: s) (o :: t)

/-- One path is found before another: it visits fewer blocks, or as many and parts from the other
towards a successor that is tried first. -/
def Sooner (g : Graph) (s t : List Nat) : Prop :=
  s.length < t.length ∨ s.length = t.length ∧ g.Parts s t

section

variable {g : Graph} {s t : List Nat}

/-- Lists that part begin with the same offset. -/
theorem Parts.head?_eq (h : g.Parts s t) : s.head? = t.head? := by
  cases h <;> rfl

/-- Lists that part after a common beginning. -/
theorem Parts.append_left (h : g.Parts s t) : ∀ before, g.Parts (before ++ s) (before ++ t)
  | [] => h
  | _ :: before => .later (h.append_left before)

/-- Lists that part do so however they go on. -/
theorem Parts.append_right (h : g.Parts s t) (u w : List Nat) : g.Parts (s ++ u) (t ++ w) := by
  induction h with
  | here mem start tries => exact .here mem start tries
  | later _ ih => exact .later ih

/-- In a well-formed graph no two lists part in both orders. -/
theorem Parts.asymm (hg : g.WellFormed) (h : g.Parts s t) : ¬ g.Parts t s := by
  induction h with
  | here mem start tries =>
    intro h
    cases h with
    | here mem' start' tries' =>
      cases hg.eq_of_start_eq mem mem' (start.trans start'.symm)
      exact Nat.lt_asymm tries.order tries'.order
    | later h =>
      cases h.head?_eq
      exact Nat.lt_irrefl _ tries.order
  | later h ih =>
    intro h'
    cases h' with
    | here _ _ tries =>
      cases h.head?_eq
      exact Nat.lt_irrefl _ tries.order
    | later h' => exact ih h'

/-- In a well-formed graph no two lists come before each other. -/
theorem Sooner.asymm (hg : g.WellFormed) (h : g.Sooner s t) : ¬ g.Sooner t s := by
  rintro (hlt | ⟨heq, hparts⟩)
  · rcases h with hlt' | ⟨heq', -⟩ <;> omega
  · rcases h with hlt' | ⟨-, hparts'⟩
    · omega
    · exact hparts.asymm hg hparts'

/-- A path that is found before another visits no more blocks. -/
theorem Sooner.length_le (h : g.Sooner s t) : s.length ≤ t.length := by
  rcases h with hlt | ⟨heq, -⟩
  · exact Nat.le_of_lt hlt
  · exact Nat.le_of_eq heq

end

/-! ## The order within a level -/

namespace Course

variable {g : Graph} {entry : Block} {v w : Visit} {earlier others : List Visit}

/-- The stops of the path of a course are the starts of the blocks that it visits. -/
theorem stops_path (hg : g.WellFormed) (hmem : entry ∈ g.blocks)
    (h : g.Course entry (v :: earlier)) :
    g.stops v.path = ((v :: earlier).map (·.block.start)).reverse := by
  unfold stops
  split
  · next hmodel => exact h.visited_starts_path hg hmodel hmem
  · next hmodel =>
    have hplain : ∀ u, g.handlersAfter u = [] :=
      handlersAfter_eq_nil (.inl (Bool.eq_false_iff.mpr hmodel))
    rw [h.starts_path, List.map_cons, List.reverse_cons, ← List.map_reverse, List.map_eq_flatMap]
    simp only [hplain]

/-- A path that goes on has one more stop. -/
theorem stops_next (hg : g.WellFormed) (hmem : entry ∈ g.blocks)
    (h : g.Course entry (v :: earlier)) (hw : w ∈ g.next v) :
    g.stops w.path = g.stops v.path ++ [w.block.start] := by
  rw [(h.next hw).stops_path hg hmem, h.stops_path hg hmem, List.map_cons, List.reverse_cons]

/-- No visit is found next from two different ones. -/
theorem eq_of_mem_next (hg : g.WellFormed) (h : g.Course entry (v :: earlier))
    (h' : g.Course entry (w :: others)) {u : Visit} (hv : u ∈ g.next v) (hw : u ∈ g.next w) :
    v = w := by
  have hvisits := (h.next hv).eq_of_trail_eq hg (h'.next hw) rfl
  exact (List.cons.inj (List.cons.inj hvisits).2).1

end Course

/-- The successors of a block are tried in the order in which they are listed. -/
theorem pairwise_eraseDups_exits (g : Graph) (b : Block) :
    (g.exits b).eraseDups.Pairwise b.Tries := by
  cases flow : b.last.flow with
  | conditionalBranch =>
    simp only [exits, flow]
    rw [List.eraseDups_append, List.pairwise_append]
    refine ⟨?_, ?_, fun m hm n hn => ?_⟩
    · refine List.Pairwise.sublist (eraseDups_sublist _) ?_
      refine (pairwise_idxOf_eraseDups b.last.targets).imp_of_mem fun hm hn horder => ?_
      exact ⟨flow, List.mem_eraseDups.mp hm, .inl (List.mem_eraseDups.mp hn), horder⟩
    · exact (List.pairwise_singleton _ b.last.next).sublist
        ((eraseDups_sublist _).trans List.filter_sublist)
    · have hm : m ∈ b.last.targets := List.mem_eraseDups.mp (List.mem_eraseDups.mp hm)
      obtain ⟨rfl, hn⟩ : n = b.last.next ∧ n ∉ b.last.targets := by
        simpa [List.removeAll] using hn
      refine ⟨flow, hm, .inr rfl, ?_⟩
      rw [List.idxOf_eq_length hn]
      exact List.idxOf_lt_length_of_mem hm
  | unconditionalBranch =>
    simp only [exits, flow]
    cases b.last.branchTarget? <;> simp [List.eraseDups_cons]
  | returns => simp [exits, flow]
  | throws =>
    simp only [exits, flow]
    split <;> simp [List.eraseDups_cons]
  | sequential | call | breakpoint | modifier => simp [exits, flow, List.eraseDups_cons]

namespace WellFormed

variable {g : Graph} {entry : Block} (hg : g.WellFormed) (hmem : entry ∈ g.blocks)

include hg hmem

/-- What is found next from a visit is found in the order in which the successors are tried. -/
theorem pairwise_eraseDups_next {v : Visit} {earlier : List Visit}
    (h : g.Course entry (v :: earlier)) :
    (g.next v).eraseDups.Pairwise fun u w => g.Parts (g.stops u.path) (g.stops w.path) := by
  have hblock : v.block ∈ g.blocks := h.mem_blocks hmem v (List.mem_cons_self ..)
  have hstart : ∀ {t w}, g.enterAt? (g.handlersAfter v ++ v.trail) t = some w →
      w.block.start = t := by
    intro t w hw
    obtain ⟨b, hfind, henter⟩ := Option.bind_eq_some_iff.mp hw
    obtain ⟨hb, rfl⟩ := hg.find.mp hfind
    exact (enters_of_enter? hb henter).start
  have hnext := hg.next_eq hblock
  rw [hnext, eraseDups_filterMap fun a _ b _ w ha hb => (hstart ha).symm.trans (hstart hb),
    List.pairwise_filterMap]
  refine (g.pairwise_eraseDups_exits v.block).imp_of_mem fun hm hn htries u hu w hw => ?_
  have hu' : u ∈ g.next v := hnext ▸ List.mem_filterMap.mpr ⟨_, List.mem_eraseDups.mp hm, hu⟩
  have hw' : w ∈ g.next v := hnext ▸ List.mem_filterMap.mpr ⟨_, List.mem_eraseDups.mp hn, hw⟩
  rw [h.stops_next hg hmem hu', h.stops_next hg hmem hw', hstart hu, hstart hw,
    h.stops_path hg hmem, List.map_cons, List.reverse_cons, List.append_assoc, List.append_assoc]
  exact (Parts.here hblock rfl htries).append_left _

/-- Within a level visits are found in the order in which their paths part. -/
theorem pairwise_eraseDups_level (n : Nat) :
    (g.level [⟨entry, [entry.start]⟩] n).eraseDups.Pairwise fun v w =>
      g.Parts (g.stops v.path) (g.stops w.path) := by
  induction n with
  | zero => exact List.pairwise_singleton ..
  | succ n ih =>
    have hcourse : ∀ v ∈ g.level [⟨entry, [entry.start]⟩] n, ∃ earlier,
        g.Course entry (v :: earlier) := fun v hv =>
      (exists_course_of_mem_level hv).imp fun _ h => h.1
    have hdistinct : ∀ v ∈ g.level [⟨entry, [entry.start]⟩] n,
        ∀ w ∈ g.level [⟨entry, [entry.start]⟩] n, ∀ u, u ∈ g.next v → u ∈ g.next w → v = w := by
      intro v hv w hw u hu hu'
      obtain ⟨_, hv⟩ := hcourse v hv
      obtain ⟨_, hw⟩ := hcourse w hw
      exact hv.eq_of_mem_next hg hw hu hu'
    rw [level_succ, eraseDups_flatMap hdistinct, List.pairwise_flatMap]
    refine ⟨fun v hv => ?_, ih.imp_of_mem fun hv hw hparts x hx y hy => ?_⟩
    · obtain ⟨_, hv⟩ := hcourse v (List.mem_eraseDups.mp hv)
      exact hg.pairwise_eraseDups_next hmem hv
    · obtain ⟨_, hv⟩ := hcourse _ (List.mem_eraseDups.mp hv)
      obtain ⟨_, hw⟩ := hcourse _ (List.mem_eraseDups.mp hw)
      rw [hv.stops_next hg hmem (List.mem_eraseDups.mp hx),
        hw.stops_next hg hmem (List.mem_eraseDups.mp hy)]
      exact hparts.append_right _ _

/-- The path of a visit has one stop more than there are levels before it. -/
theorem length_stops_of_mem_level {n : Nat} {v : Visit}
    (hv : v ∈ g.level [⟨entry, [entry.start]⟩] n) : (g.stops v.path).length = n + 1 := by
  obtain ⟨earlier, hcourse, hlength⟩ := exists_course_of_mem_level hv
  rw [hcourse.stops_path hg hmem, List.length_reverse, List.length_map, List.length_cons, hlength]

/-- Visits are found in the order of discovery. -/
theorem pairwise_eraseDups_visitsWithin (n : Nat) :
    (g.visitsWithin entry n).eraseDups.Pairwise fun v w =>
      g.Sooner (g.stops v.path) (g.stops w.path) := by
  have hlength : ∀ {i v}, v ∈ (g.level [⟨entry, [entry.start]⟩] i).eraseDups →
      (g.stops v.path).length = i + 1 := fun hv =>
    hg.length_stops_of_mem_level hmem (List.mem_eraseDups.mp hv)
  have hdistinct : ∀ i ∈ List.range n, ∀ j ∈ List.range n, ∀ v,
      v ∈ g.level [⟨entry, [entry.start]⟩] i → v ∈ g.level [⟨entry, [entry.start]⟩] j → i = j := by
    intro i _ j _ v hi hj
    have := hg.length_stops_of_mem_level hmem hi
    have := hg.length_stops_of_mem_level hmem hj
    omega
  rw [visitsWithin, eraseDups_flatMap hdistinct, List.pairwise_flatMap]
  refine ⟨fun i _ => ?_, ?_⟩
  · refine (hg.pairwise_eraseDups_level hmem i).imp_of_mem fun hv hw hparts => ?_
    exact .inr ⟨(hlength hv).trans (hlength hw).symm, hparts⟩
  · refine (List.pairwise_lt_range.sublist (eraseDups_sublist _)).imp fun hij v hv w hw => ?_
    left
    rw [hlength hv, hlength hw]
    exact Nat.succ_lt_succ hij

omit hmem in
/-- The paths of a well-formed graph are listed in the order of discovery. -/
theorem pairwise_sooner_paths {paths : PathSet} (hpaths : g.paths = .ok paths) :
    paths.toList.Pairwise fun p q => g.Sooner (g.stops p) (g.stops q) := by
  obtain ⟨entry, hentry, hunique⟩ := hg.entry_eq
  have hmem := (hunique.mpr rfl).1
  obtain ⟨found, hfound, hlist⟩ := hg.exists_paths_eq hentry (Nat.le_refl _)
  cases hpaths.symm.trans hfound
  have hdistinct : ∀ v ∈ (g.visitsWithin entry g.depth).filter (·.block.last.flow = .returns),
      ∀ w ∈ (g.visitsWithin entry g.depth).filter (·.block.last.flow = .returns),
        v.path = w.path → v = w := by
    intro v hv w hw hpath
    obtain ⟨i, -, hv⟩ := List.mem_flatMap.mp (List.mem_of_mem_filter hv)
    obtain ⟨j, -, hw⟩ := List.mem_flatMap.mp (List.mem_of_mem_filter hw)
    obtain ⟨_, hv, -⟩ := exists_course_of_mem_level hv
    obtain ⟨_, hw, -⟩ := exists_course_of_mem_level hw
    have htrail : v.trail = w.trail := List.reverse_injective (congrArg Path.starts hpath)
    exact (List.cons.inj (hv.eq_of_trail_eq hg hw htrail)).1
  rw [hlist, eraseDups_map hdistinct, eraseDups_filter, List.pairwise_map]
  exact (hg.pairwise_eraseDups_visitsWithin hmem _).sublist List.filter_sublist

end WellFormed

/-! ## The paths of a method -/

/-- Discovery is breadth first and in a fixed order. Over the blocks of any instructions that were
read, with any clauses and settings, the paths are listed by the number of blocks that they visit,
where the handlers on the way do not count, and of two paths that visit equally many the one comes
first that at the step where they part takes the successor that is tried first. -/
theorem paths_breadthFirst {instructions : List Instruction} {length : Nat} {clauses : List Clause}
    {blocks : Array Block} (hread : ∀ i ∈ instructions, i.Decoded)
    (hblocks : Block.partition instructions length clauses = .ok blocks)
    (regions : List Clause) (settings : Settings) :
    ∃ paths, (Graph.mk blocks regions settings).paths = .ok paths ∧
      paths.toList.Pairwise (fun p q => ((Graph.mk blocks regions settings).stops p).length ≤
        ((Graph.mk blocks regions settings).stops q).length) ∧
      ∀ (i j : Nat) (p q : Path), paths.toList[i]? = some p → paths.toList[j]? = some q →
        (i < j ↔ (Graph.mk blocks regions settings).Sooner
          ((Graph.mk blocks regions settings).stops p)
          ((Graph.mk blocks regions settings).stops q)) := by
  have hg := wellFormed_of_partition (fun i hi => (hread i hi).size_pos) hblocks regions settings
  obtain ⟨paths, hpaths, -⟩ := hg.paths_spec
  have hsooner := hg.pairwise_sooner_paths hpaths
  refine ⟨paths, hpaths, hsooner.imp Sooner.length_le, ?_⟩
  intro i j p q hp hq
  exact lt_iff_of_pairwise hsooner (fun _ _ h => h.asymm hg) hp hq

/-- A switch that names its targets out of order and more than once, and what follows it among them,
after a range that is left over a handler. -/
def caseOrder : List UInt8 :=
  [0xDE, 0x01, 0xDC, 0x02, 0x45, 4, 0, 0, 0, 2, 0, 0, 0, 0, 0, 0, 0, 2, 0, 0, 0, 1, 0, 0, 0,
    0x2A, 0x2A, 0x2A]

/-- The clause that makes it a finally handler. -/
def caseOrderFinally : Clause :=
  ⟨2, 0, 2, 2, 1, 0⟩

/-- The paths stand in the order of the targets. -/
theorem paths_breadthFirst_switch :
    ∃ is blocks paths,
      Body.decode caseOrder = .ok is ∧
      Block.partition is 28 [caseOrderFinally] = .ok blocks ∧
      (Graph.mk blocks [caseOrderFinally] ⟨2, true⟩).paths = .ok paths ∧
      paths.toList = [⟨[0, 2, 3, 27]⟩, ⟨[0, 2, 3, 25]⟩, ⟨[0, 2, 3, 26]⟩] ∧
      (Graph.mk blocks [caseOrderFinally] ⟨2, true⟩).Sooner [0, 3, 27] [0, 3, 25] ∧
      (Graph.mk blocks [caseOrderFinally] ⟨2, true⟩).Sooner [0, 3, 25] [0, 3, 26] := by
  have hok : ((Body.decode caseOrder).bind fun is =>
        (Block.partition is 28 [caseOrderFinally]).bind fun blocks =>
          (Graph.mk blocks [caseOrderFinally] ⟨2, true⟩).entry.bind fun entry =>
            .ok ((((visitsWithin ⟨blocks, [caseOrderFinally], ⟨2, true⟩⟩ entry
                (depth ⟨blocks, [caseOrderFinally], ⟨2, true⟩⟩)).filter
                  (·.block.last.flow = .returns)).map Visit.path).eraseDups,
              [⟨[0, 2, 3, 27]⟩, ⟨[0, 2, 3, 25]⟩, ⟨[0, 2, 3, 26]⟩].map
                (Graph.mk blocks [caseOrderFinally] ⟨2, true⟩).stops)) =
      .ok ([⟨[0, 2, 3, 27]⟩, ⟨[0, 2, 3, 25]⟩, ⟨[0, 2, 3, 26]⟩],
        [[0, 3, 27], [0, 3, 25], [0, 3, 26]]) := by cbv
  obtain ⟨is, hread, hok⟩ := bind_eq_ok_iff.mp hok
  obtain ⟨blocks, hblocks, hok⟩ := bind_eq_ok_iff.mp hok
  obtain ⟨entry, hentry, hok⟩ := bind_eq_ok_iff.mp hok
  obtain ⟨hfound, hstops⟩ := Prod.mk.inj (Except.ok.inj hok)
  have hdecoded : ∀ i ∈ is, i.Decoded := fun i hi => Body.decoded_of_mem hread hi
  have hg := wellFormed_of_partition (fun i hi => (hdecoded i hi).size_pos) hblocks
    [caseOrderFinally] ⟨2, true⟩
  obtain ⟨paths, hpaths, hlist⟩ := hg.exists_paths_eq hentry (Nat.le_refl _)
  obtain ⟨paths', hpaths', -, horder⟩ := paths_breadthFirst hdecoded hblocks
    [caseOrderFinally] ⟨2, true⟩
  cases hpaths.symm.trans hpaths'
  rw [hfound] at hlist
  rw [hlist] at horder
  simp only [List.map_cons, List.map_nil, List.cons.injEq, and_true] at hstops
  obtain ⟨hfirst, hsecond, hthird⟩ := hstops
  refine ⟨is, blocks, paths, hread, hblocks, hpaths, hlist, ?_, ?_⟩
  · rw [← hfirst, ← hsecond]
    exact (horder 0 1 _ _ rfl rfl).mp (by decide)
  · rw [← hsecond, ← hthird]
    exact (horder 1 2 _ _ rfl rfl).mp (by decide)

end Graph

end Provenance
