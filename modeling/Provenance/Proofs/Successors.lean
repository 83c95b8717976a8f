import Mathlib.Data.List.Chain
import Mathlib.Data.List.Nodup
import Provenance.Proofs.Exploration

/-!
# Where control goes from a block

The successors of a block are decided by its last instruction alone (`Graph.Goes`, `Graph.Leads`),
without regard to the path on which the block was reached. An extension of a path goes to a
successor that the path may enter (`Graph.extends_iff`). Control that gets from one block to another
gets there along a walk without repetition (`exists_nodup_isChain`), and where no handlers are
recorded, a walk from the entry that comes to no block too often is a path of the method
(`Graph.Admissible.exists_walk`).
-/

namespace Provenance

/-! ## Walks without repetition -/

/-- What can be reached can be reached without coming to anything twice. -/
theorem exists_nodup_isChain {α : Type} {R : α → α → Prop} {a b : α}
    (h : Relation.ReflTransGen R a b) :
    ∃ l, (a :: l).IsChain R ∧ (a :: l).Nodup ∧ b ∈ (a :: l).getLast? := by
  induction h using Relation.ReflTransGen.head_induction_on with
  | refl => exact ⟨[], .singleton b, List.nodup_singleton b, rfl⟩
  | @head a c hac _ ih =>
    obtain ⟨l, hchain, hnodup, hlast⟩ := ih
    by_cases ha : a ∈ c :: l
    · -- The walk comes back to `a`, so what it does before that is left out.
      obtain ⟨before, after, hsplit⟩ := List.append_of_mem ha
      rw [hsplit] at hchain hnodup hlast
      refine ⟨after, hchain.right_of_append, hnodup.of_append_right, ?_⟩
      rwa [List.getLast?_append_cons] at hlast
    · refine ⟨c :: l, .cons_cons hac hchain, List.nodup_cons.mpr ⟨ha, hnodup⟩, ?_⟩
      rwa [List.getLast?_cons_cons]

namespace Graph

/-! ## Successors -/

/-- Control can go on at offset `t` after a block. After a return, or a throw that is not caught, it
does not go on. -/
inductive Goes (g : Graph) (a : Block) (t : Nat) : Prop
  /-- An unconditional branch goes to its target. -/
  | branch (flow : a.last.flow = .unconditionalBranch) (target : a.last.branchTarget? = some t)
  /-- A conditional branch goes to any of its targets. -/
  | taken (flow : a.last.flow = .conditionalBranch) (target : t ∈ a.last.targets)
  /-- A conditional branch goes on with what follows it. -/
  | notTaken (flow : a.last.flow = .conditionalBranch) (next : a.last.next = t)
  /-- After a throw that is caught control goes on with what follows. -/
  | caught (flow : a.last.flow = .throws) (caught : g.Caught a.last.offset)
      (next : a.last.next = t)
  /-- After an instruction of any other kind control goes on with what follows. -/
  | onward (flow : a.last.flow ∉ [.unconditionalBranch, .conditionalBranch, .returns, .throws])
      (next : a.last.next = t)

/-- Block `b` is a successor of block `a`. -/
structure Leads (g : Graph) (a b : Block) : Prop where
  mem : b ∈ g.blocks
  goes : g.Goes a b.start

section

variable {g : Graph} {v w : Visit}

/-- Handlers are recorded only after an unconditional branch. -/
theorem handlersAfter_of_flow_ne (h : v.block.last.flow ≠ .unconditionalBranch) :
    g.handlersAfter v = [] := by
  unfold handlersAfter
  split
  · next hflow _ => exact absurd hflow h
  · rfl

/-- A path goes on to a successor of the block that it has reached, if it may enter it. -/
theorem extends_iff :
    g.Extends v w ↔ g.Leads v.block w.block ∧
      g.Enters (g.handlersAfter v ++ v.trail) w.block.start w := by
  constructor
  · intro h
    refine ⟨⟨h.enters.mem, ?_⟩, h.enters⟩
    cases h with
    | branch flow target _ enters => exact .branch flow (enters.start ▸ target)
    | taken flow target enters => exact .taken flow (enters.start ▸ target)
    | notTaken flow enters => exact .notTaken flow enters.start.symm
    | caught flow caught enters => exact .caught flow caught enters.start.symm
    | onward flow enters => exact .onward flow enters.start.symm
  · rintro ⟨⟨-, hgoes⟩, henters⟩
    cases hgoes with
    | branch flow target =>
      refine .branch flow target (crosses_iff.mpr rfl) ?_
      simpa only [handlersAfter, flow, target] using henters
    | taken flow target =>
      rw [handlersAfter_of_flow_ne (by simp [flow])] at henters
      exact .taken flow target henters
    | notTaken flow next =>
      rw [handlersAfter_of_flow_ne (by simp [flow]), ← next] at henters
      exact .notTaken flow henters
    | caught flow caught next =>
      rw [handlersAfter_of_flow_ne (by simp [flow]), ← next] at henters
      exact .caught flow caught henters
    | onward flow next =>
      rw [handlersAfter_of_flow_ne fun h => by simp [h] at flow, ← next] at henters
      exact .onward flow henters

/-- No handlers are recorded if none are to be, or if there is no finally clause. -/
theorem handlersAfter_eq_nil
    (h : g.settings.modelFinally = false ∨ ∀ c ∈ g.clauses, ¬ c.isFinally) (v : Visit) :
    g.handlersAfter v = [] := by
  have hleft : ∀ source target, g.leftFinally? source target = none := by
    intro source target
    unfold leftFinally?
    rcases h with hoff | hnone
    · rw [if_neg (by simp [hoff])]
    · split
      · refine List.find?_eq_none.mpr fun c hc => ?_
        simp [hnone c hc]
      · rfl
  unfold handlersAfter
  split
  · rw [hleft]
    rfl
  · rfl

/-! ## Walks that are paths -/

/-- Where no handlers are recorded, a path goes on along a walk that comes to no block too often. -/
theorem Admissible.exists_walk (hplain : ∀ v, g.handlersAfter v = []) (hv : g.Admissible v)
    {walk : List Block} (hchain : (v.block :: walk).IsChain g.Leads)
    (hcount : ∀ s, (v.trail ++ walk.map Block.start).count s ≤ g.settings.revisitLimit + 1) :
    ∃ w, g.Admissible w ∧ w.block ∈ (v.block :: walk).getLast? ∧
      w.trail = (walk.map Block.start).reverse ++ v.trail := by
  induction walk generalizing v with
  | nil => exact ⟨v, hv, rfl, rfl⟩
  | cons b rest ih =>
    obtain ⟨hleads, hrest⟩ := List.isChain_cons_cons.mp hchain
    have hadmitted : v.trail.count b.start ≤ g.settings.revisitLimit := by
      have := hcount b.start
      rw [List.count_append, List.map_cons, List.count_cons_self] at this
      omega
    have hextends : g.Extends v ⟨b, b.start :: v.trail⟩ := by
      refine extends_iff.mpr ⟨hleads, ?_⟩
      rw [hplain v, List.nil_append]
      exact ⟨hleads.mem, rfl, hadmitted, rfl⟩
    have hcount' : ∀ s, (b.start :: v.trail ++ rest.map Block.start).count s ≤
        g.settings.revisitLimit + 1 := by
      intro s
      rw [List.cons_append, ← List.perm_middle.count_eq s]
      exact hcount s
    obtain ⟨w, hw, hlast, htrail⟩ := ih (.extend hv hextends) hrest hcount'
    refine ⟨w, hw, ?_, ?_⟩
    · rwa [List.getLast?_cons_cons]
    · rw [htrail, List.map_cons, List.reverse_cons, List.append_assoc]
      rfl

end

end Graph

end Provenance
