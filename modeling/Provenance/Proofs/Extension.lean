import Mathlib.Data.List.Basic
import Provenance.Path.Explore
import Provenance.Proofs.Outcome
import Provenance.Proofs.Partition

/-!
# How a path goes on

The rules by which a path is extended, stated on their own: `Graph.Crosses` says which handlers are
recorded when control leaves a protected range, `Graph.Enters` when a block may be entered, and
`Graph.Extends` has one rule for each way in which the last instruction of a block lets control go
on. `Graph.expand` follows the rules: what it finds is an extension in every graph
(`Graph.extends_of_mem_next`), and in a well-formed graph it succeeds and finds them all
(`Graph.WellFormed.expand_spec`). The blocks of a partition form a well-formed graph
(`Graph.wellFormed_of_partition`).
-/

namespace Provenance

/-- Control that goes from `source` to `target` leaves the protected range of a finally clause. -/
def Clause.Leaves (c : Clause) (source target : Nat) : Prop :=
  c.isFinally ∧ c.tryContains source ∧ ¬ c.tryContains target

namespace Graph

/-! ## The rules -/

/-- The handlers that a path records when control goes from `source` to `target`: that of the first
clause whose protected range is left, if handlers are recorded and there is such a clause. -/
inductive Crosses (g : Graph) (source target : Nat) : List Nat → Prop
  | handler {before after : List Clause} {c : Clause} (model : g.settings.modelFinally)
      (split : g.clauses = before ++ c :: after) (first : ∀ d ∈ before, ¬ d.Leaves source target)
      (leaves : c.Leaves source target) : Crosses g source target [c.handlerStart]
  | plain (none : g.settings.modelFinally → ∀ c ∈ g.clauses, ¬ c.Leaves source target) :
      Crosses g source target []

/-- A path with this trail may enter the block that starts at `t`, which gives the visit `w`. -/
structure Enters (g : Graph) (trail : List Nat) (t : Nat) (w : Visit) : Prop where
  mem : w.block ∈ g.blocks
  start : w.block.start = t
  admitted : trail.count t ≤ g.settings.revisitLimit
  trail_eq : w.trail = t :: trail

/-- A throw at this offset is caught in the method. -/
def Caught (g : Graph) (offset : Nat) : Prop :=
  ∃ c ∈ g.clauses, (c.isCatch ∨ c.isFilter) ∧ c.tryContains offset

/-- How a path goes on after a visit. There is no rule for a return and none for a throw that is
not caught. -/
inductive Extends (g : Graph) (v w : Visit) : Prop
  /-- An unconditional branch goes to its target, after the handler on the way. -/
  | branch {t : Nat} {handlers : List Nat} (flow : v.block.last.flow = .unconditionalBranch)
      (target : v.block.last.branchTarget? = some t)
      (crosses : g.Crosses v.block.last.offset t handlers)
      (enters : g.Enters (handlers ++ v.trail) t w)
  /-- A conditional branch goes to any of its targets. -/
  | taken {t : Nat} (flow : v.block.last.flow = .conditionalBranch)
      (target : t ∈ v.block.last.targets) (enters : g.Enters v.trail t w)
  /-- A conditional branch goes on with what follows it. -/
  | notTaken (flow : v.block.last.flow = .conditionalBranch)
      (enters : g.Enters v.trail v.block.last.next w)
  /-- After a throw that is caught the path goes on with what follows. -/
  | caught (flow : v.block.last.flow = .throws) (caught : g.Caught v.block.last.offset)
      (enters : g.Enters v.trail v.block.last.next w)
  /-- After an instruction of any other kind the path goes on with what follows. -/
  | onward
      (flow : v.block.last.flow ∉ [.unconditionalBranch, .conditionalBranch, .returns, .throws])
      (enters : g.Enters v.trail v.block.last.next w)

/-! ## What the functions decide -/

section

variable {g : Graph} {trail : List Nat}

/-- A clause is left exactly if the test of `leftFinally?` says so. -/
theorem leaves_iff {c : Clause} {source target : Nat} :
    (c.isFinally && c.tryContains source && !c.tryContains target) ↔ c.Leaves source target := by
  simp [Clause.Leaves, and_assoc]

/-- The handlers on the way are those of `leftFinally?`. -/
theorem crosses_iff {source target : Nat} {handlers : List Nat} :
    g.Crosses source target handlers ↔
      handlers = ((g.leftFinally? source target).map Clause.handlerStart).toList := by
  unfold leftFinally?
  constructor
  · rintro (⟨model, split, first, leaves⟩ | none)
    · rename_i before after c
      have hfirst : before.find? (fun d => d.isFinally && d.tryContains source &&
          !d.tryContains target) = .none :=
        List.find?_eq_none.mpr fun d hd => mt leaves_iff.mp (first d hd)
      rw [if_pos model, split, List.find?_append, hfirst, Option.none_or, List.find?_cons,
        leaves_iff.mpr leaves]
      rfl
    · split
      · next model =>
        rw [List.find?_eq_none.mpr fun c hc => mt leaves_iff.mp (none model c hc)]
        rfl
      · rfl
  · rintro rfl
    split
    · next model =>
      cases hfind : g.clauses.find? fun c =>
        c.isFinally && c.tryContains source && !c.tryContains target with
      | none =>
        exact .plain fun _ c hc => mt leaves_iff.mpr (List.find?_eq_none.mp hfind c hc)
      | some c =>
        obtain ⟨leaves, before, after, split, first⟩ := List.find?_eq_some_iff_append.mp hfind
        exact .handler model split
          (fun d hd hleaves => by simpa [leaves_iff.mpr hleaves] using first d hd)
          (leaves_iff.mp leaves)
    · next model => exact .plain fun h => absurd h model

/-- A throw is caught exactly if the test says so. -/
theorem catches_iff {offset : Nat} : g.catches offset ↔ g.Caught offset := by
  simp [catches, Caught, Clause.handlesExceptions]

/-- Entering a block that was found follows the rule. -/
theorem enters_of_enter? {block : Block} {w : Visit} (hblock : block ∈ g.blocks)
    (h : w ∈ g.enter? trail block) : g.Enters trail block.start w := by
  unfold enter? at h
  split at h
  · next hadmits =>
    cases h
    exact ⟨hblock, rfl, of_decide_eq_true hadmits, rfl⟩
  · cases h

/-- A branch that is followed enters its target. -/
theorem enters_of_branch {source : Instruction} {t : Nat} {visit? : Option Visit} {w : Visit}
    (h : g.branch trail source t = .ok visit?) (hw : w ∈ visit?) : g.Enters trail t w := by
  unfold branch at h
  split at h
  · next block hfind =>
    obtain ⟨hmem, rfl⟩ := Bisect.mem_of_find?_eq_some hfind
    cases h
    exact enters_of_enter? hmem hw
  · cases h

/-- Falling through enters what follows. -/
theorem enters_of_fallThrough {source : Instruction} {w : Visit}
    (h : w ∈ (g.fallThrough trail source).next) : g.Enters trail source.next w := by
  unfold fallThrough at h
  split at h
  · next hadmits =>
    split at h
    · next block hfind =>
      obtain ⟨hmem, hstart⟩ := Bisect.mem_of_find?_eq_some hfind
      cases List.mem_singleton.mp h
      exact ⟨hmem, hstart, of_decide_eq_true hadmits, by rw [hstart]⟩
    · cases h
  · cases h

/-- Falling through is no return. -/
theorem fallThrough_ending?_ne (source : Instruction) :
    (g.fallThrough trail source).ending? ≠ some .returned := by
  unfold fallThrough
  split
  · split <;> nofun
  · nofun

/-- In every graph, what is found next extends the path. -/
theorem extends_of_mem_next {v w : Visit} {x : Expansion} (h : g.expand v = .ok x)
    (hw : w ∈ x.next) : g.Extends v w := by
  unfold expand at h
  simp only at h
  split at h
  · next flow =>
    split at h
    · cases h; cases hw
    · next t target =>
      obtain ⟨visit?, hbranch, h⟩ := bind_eq_ok_iff.mp h
      cases h
      exact .branch flow target (crosses_iff.mpr rfl)
        (enters_of_branch hbranch (Option.mem_toList.mp hw))
  · next flow =>
    obtain ⟨taken, htaken, h⟩ := bind_eq_ok_iff.mp h
    cases h
    rcases List.mem_append.mp hw with hw | hw
    · obtain ⟨visit?, hvisit, hw⟩ := List.mem_flatMap.mp hw
      obtain ⟨t, ht, hbranch⟩ := exists_of_mem_right (mapM_eq_ok_iff.mp htaken) hvisit
      exact .taken flow (List.mem_eraseDups.mp ht)
        (enters_of_branch hbranch (Option.mem_toList.mp hw))
    · exact .notTaken flow (enters_of_fallThrough hw)
  · cases h; cases hw
  · next flow =>
    split at h
    · next hcatches =>
      cases h
      exact .caught flow (catches_iff.mp hcatches) (enters_of_fallThrough hw)
    · cases h; cases hw
  · next h₁ h₂ h₃ h₄ =>
    cases h
    exact .onward (by simp_all) (enters_of_fallThrough hw)

end

/-! ## Well-formed graphs -/

/-- A graph whose look-ups find the blocks that are there, whose branches lead to blocks, and that
has one entry. -/
structure WellFormed (g : Graph) : Prop where
  find : ∀ {t : Nat} {b : Block}, Block.find? g.blocks t = some b ↔ b ∈ g.blocks ∧ b.start = t
  target : ∀ {b : Block}, b ∈ g.blocks → ∀ {t : Nat}, t ∈ b.last.targets →
    ∃ b' ∈ g.blocks, b'.start = t
  entry : ∃ b, ∀ {b' : Block}, (b' ∈ g.blocks ∧ b'.isEntry) ↔ b' = b

namespace WellFormed

variable {g : Graph} {trail : List Nat}

/-- The entry that is found is the block that is marked. -/
theorem entry_eq (hg : g.WellFormed) : ∃ b, g.entry = .ok b ∧
    ∀ {b' : Block}, (b' ∈ g.blocks ∧ b'.isEntry) ↔ b' = b := by
  obtain ⟨b, hb⟩ := hg.entry
  obtain ⟨hmem, hentry⟩ := hb.mpr rfl
  refine ⟨b, ?_, hb⟩
  have hne : ¬ g.blocks.isEmpty := by
    intro hempty
    rw [Array.isEmpty_iff] at hempty
    simp [hempty] at hmem
  have hsome : (g.blocks.find? Block.isEntry).isSome :=
    Array.find?_isSome.mpr ⟨b, hmem, hentry⟩
  obtain ⟨b', hb'⟩ := Option.isSome_iff_exists.mp hsome
  cases hb.mp ⟨Array.mem_of_find?_eq_some hb', Array.find?_some hb'⟩
  simp only [Graph.entry, if_neg hne, hb']

/-- Blocks that start at one offset are the same, since the look-up finds either. -/
theorem eq_of_start_eq (hg : g.WellFormed) {a b : Block} (ha : a ∈ g.blocks) (hb : b ∈ g.blocks)
    (h : a.start = b.start) : a = b :=
  Option.some.inj ((hg.find.mpr ⟨ha, h⟩).symm.trans (hg.find.mpr ⟨hb, rfl⟩))

/-- A branch to a block is followed exactly if the rule allows it. -/
theorem branch_spec (hg : g.WellFormed) (trail : List Nat) (source : Instruction) {t : Nat}
    (ht : ∃ b ∈ g.blocks, b.start = t) :
    ∃ visit?, g.branch trail source t = .ok visit? ∧ ∀ w, w ∈ visit? ↔ g.Enters trail t w := by
  obtain ⟨b, hb, rfl⟩ := ht
  have hfind := hg.find.mpr ⟨hb, rfl⟩
  refine ⟨g.enter? trail b, by simp only [branch, hfind], fun w => ?_⟩
  refine ⟨enters_of_enter? hb, fun hw => ?_⟩
  have hblock : w.block = b := hg.eq_of_start_eq hw.mem hb hw.start
  have hvisit : w = ⟨b, b.start :: trail⟩ := by
    rw [← hw.trail_eq, ← hblock]
  rw [enter?, if_pos (show g.admits trail b.start from decide_eq_true hw.admitted), hvisit]
  rfl

/-- Falling through finds exactly what the rule allows. -/
theorem mem_fallThrough (hg : g.WellFormed) {source : Instruction} {w : Visit} :
    w ∈ (g.fallThrough trail source).next ↔ g.Enters trail source.next w := by
  refine ⟨enters_of_fallThrough, fun hw => ?_⟩
  have hfind := hg.find.mpr ⟨hw.mem, hw.start⟩
  unfold fallThrough
  rw [if_pos (show g.admits trail source.next from decide_eq_true hw.admitted), hfind]
  rw [List.mem_singleton, hw.start, ← hw.trail_eq]

/-- In a well-formed graph a visit can be expanded, what is found next are the extensions of the
path, and the path returns exactly if the last instruction does. -/
theorem expand_spec (hg : g.WellFormed) {v : Visit} (hv : v.block ∈ g.blocks) :
    ∃ x, g.expand v = .ok x ∧ (∀ w, w ∈ x.next ↔ g.Extends v w) ∧
      (x.ending? = some .returned ↔ v.block.last.flow = .returns) := by
  suffices h : ∃ x, g.expand v = .ok x ∧ (∀ w, g.Extends v w → w ∈ x.next) ∧
      (x.ending? = some .returned ↔ v.block.last.flow = .returns) by
    obtain ⟨x, hx, hnext, hending⟩ := h
    exact ⟨x, hx, fun w => ⟨extends_of_mem_next hx, hnext w⟩, hending⟩
  cases flow : v.block.last.flow with
  | unconditionalBranch =>
    cases target : v.block.last.branchTarget? with
    | none =>
      refine ⟨⟨[], none⟩, by simp only [expand, flow, target], fun w hw => ?_, by simp⟩
      cases hw <;> simp_all
    | some t =>
      have ht : t ∈ v.block.last.targets := Instruction.mem_targets_iff.mpr (.inl target)
      obtain ⟨visit?, hvisit, hmem⟩ := hg.branch_spec
        (((g.leftFinally? v.block.last.offset t).map Clause.handlerStart).toList ++ v.trail)
        v.block.last (hg.target hv ht)
      refine ⟨⟨visit?.toList, none⟩, ?_, fun w hw => ?_, by simp⟩
      · simp only [expand, flow, target]
        exact bind_eq_ok_iff.mpr ⟨visit?, hvisit, rfl⟩
      cases hw with
      | branch _ target' crosses enters =>
        cases target.symm.trans target'
        rw [crosses_iff.mp crosses] at enters
        exact Option.mem_toList.mpr ((hmem w).mpr enters)
      | taken flow' | notTaken flow' | caught flow' | onward flow' => simp [flow] at flow'
  | conditionalBranch =>
    have hbranch := fun t ht => hg.branch_spec v.trail v.block.last (hg.target (t := t) hv ht)
    obtain ⟨taken, htaken⟩ :
        ∃ taken, v.block.last.targets.eraseDups.mapM (g.branch v.trail v.block.last) = .ok taken :=
      exists_mapM_eq_ok fun t ht => (hbranch t (List.mem_eraseDups.mp ht)).imp fun _ h => h.1
    refine ⟨⟨taken.flatMap Option.toList ++ (g.fallThrough v.trail v.block.last).next,
      (g.fallThrough v.trail v.block.last).ending?⟩, ?_, fun w hw => ?_, ?_⟩
    · simp only [expand, flow]
      exact bind_eq_ok_iff.mpr ⟨taken, htaken, rfl⟩
    · cases hw with
      | taken _ target enters =>
        obtain ⟨visit?, hvisit, hmem⟩ := hbranch _ target
        obtain ⟨visit?', hin, hvisit'⟩ :=
          exists_of_mem_left (mapM_eq_ok_iff.mp htaken) (List.mem_eraseDups.mpr target)
        cases hvisit.symm.trans hvisit'
        exact List.mem_append_left _ (List.mem_flatMap.mpr
          ⟨visit?, hin, Option.mem_toList.mpr ((hmem w).mpr enters)⟩)
      | notTaken _ enters => exact List.mem_append_right _ (hg.mem_fallThrough.mpr enters)
      | branch flow' | caught flow' | onward flow' => simp [flow] at flow'
    · simp [fallThrough_ending?_ne]
  | returns =>
    refine ⟨⟨[], some .returned⟩, by simp only [expand, flow], fun w hw => ?_, by simp⟩
    cases hw <;> simp_all
  | throws =>
    by_cases hcatches : g.catches v.block.last.offset
    · refine ⟨g.fallThrough v.trail v.block.last, by simp only [expand, flow, if_pos hcatches],
        fun w hw => ?_, by simp [fallThrough_ending?_ne]⟩
      cases hw with
      | caught _ _ enters => exact hg.mem_fallThrough.mpr enters
      | branch flow' | taken flow' | notTaken flow' | onward flow' => simp [flow] at flow'
    · refine ⟨⟨[], some .uncaughtThrow⟩, by simp only [expand, flow, if_neg hcatches],
        fun w hw => ?_, by simp⟩
      cases hw with
      | caught _ caught _ => exact absurd (catches_iff.mpr caught) hcatches
      | branch flow' | taken flow' | notTaken flow' | onward flow' => simp [flow] at flow'
  | sequential | call | breakpoint | modifier =>
    refine ⟨g.fallThrough v.trail v.block.last, by simp only [expand, flow], fun w hw => ?_,
      by simp [fallThrough_ending?_ne]⟩
    cases hw with
    | onward _ enters => exact hg.mem_fallThrough.mpr enters
    | branch flow' | taken flow' | notTaken flow' | caught flow' => simp [flow] at flow'

end WellFormed

/-- The blocks of a partition form a well-formed graph, whatever clauses and settings the paths are
explored with. -/
theorem wellFormed_of_partition {instructions : List Instruction} {length : Nat}
    {clauses : List Clause} {blocks : Array Block} (pos : ∀ i ∈ instructions, 0 < i.size)
    (h : Block.partition instructions length clauses = .ok blocks) (clauses' : List Clause)
    (settings : Settings) : WellFormed ⟨blocks, clauses', settings⟩ where
  find := Block.find?_eq_some_iff pos h
  target hb _ ht := Block.exists_start_of_mem_targets pos h hb (Block.last_mem_instructions _) ht
  entry := by
    obtain ⟨b, hb, hstart⟩ := Block.exists_start_zero pos h
    refine ⟨b, fun {b'} => ⟨fun ⟨hb', hentry⟩ => ?_, ?_⟩⟩
    · have hstart' := (Block.isEntry_iff h hb').mp hentry
      exact Option.some.inj (((Block.find?_eq_some_iff pos h).mpr ⟨hb', hstart'⟩).symm.trans
        ((Block.find?_eq_some_iff pos h).mpr ⟨hb, hstart⟩))
    · rintro rfl
      exact ⟨hb, (Block.isEntry_iff h hb).mpr hstart⟩

end Graph

end Provenance
