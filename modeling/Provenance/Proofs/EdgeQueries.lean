import Mathlib.Data.List.Perm.Basic
import Provenance.Listing
import Provenance.Proofs.Edges
import Provenance.Proofs.Rendering

/-!
# Equal contents give equal answers

The order in which edges were added shows in the shape of the tree that stores them, and nowhere
else. Two sets that were built from the same edges, in any order and with any repetitions, have the
same groups (`EdgeSet.sameGroups_insertAll`), so they answer every question alike
(`EdgeSet.SameGroups.sameAnswers`), and everything that is written from them is the same text
(`View.sameTexts_of_sameGroups`).
-/

namespace Provenance

namespace EdgeSet

/-- The sets have the same groups. They may still differ in the shape of the tree that stores
them. -/
def SameGroups (s t : EdgeSet) : Prop :=
  s.inputs.groups.Equiv t.inputs.groups

/-- The sets answer every question alike. -/
structure SameAnswers (s t : EdgeSet) : Prop where
  toList : s.toList = t.toList
  sources : ∀ consumer, s.sources consumer = t.sources consumer
  producers : ∀ consumer position, s.producers consumer position = t.producers consumer position
  consumers : s.consumers = t.consumers
  size : s.size = t.size
  isConsumed : ∀ producer, s.isConsumed producer = t.isConsumed producer

/-- Adding edges leaves no group empty. -/
theorem occupied_insertAll (edges : List Edge) {s : EdgeSet} (h : s.inputs.Occupied) :
    (s.insertAll edges).inputs.Occupied := by
  rw [inputs_insertAll]
  exact h.foldl_insert _

/-- The inputs of a consumer are decided by which edges were added. -/
theorem inputsOf_insertAll_congr {first second : List Edge} (h : ∀ e, e ∈ first ↔ e ∈ second)
    (consumer : Nat) :
    (empty.insertAll first).inputsOf consumer = (empty.insertAll second).inputsOf consumer := by
  refine (pairwise_inputsOf_insertAll first consumer).eq_of_mem_iff
    (pairwise_inputsOf_insertAll second consumer) fun input => ?_
  rw [mem_inputsOf_insertAll, mem_inputsOf_insertAll, h]

/-- Sets that were built from the same edges, in any order and with any repetitions, have the same
groups. -/
theorem sameGroups_insertAll {first second : List Edge} (h : ∀ e, e ∈ first ↔ e ∈ second) :
    (empty.insertAll first).SameGroups (empty.insertAll second) :=
  (occupied_insertAll first Grouping.occupied_empty).equiv
    (occupied_insertAll second Grouping.occupied_empty) (inputsOf_insertAll_congr h)

namespace SameGroups

variable {s t : EdgeSet} (h : s.SameGroups t)

include h

/-- Sets with the same groups give each consumer the same inputs. -/
theorem inputsOf_eq (consumer : Nat) : s.inputsOf consumer = t.inputsOf consumer :=
  Std.TreeMap.Equiv.getD_eq h

/-- They give each consumer the same positions. -/
theorem positions_eq (consumer : Nat) : s.positions consumer = t.positions consumer := by
  rw [positions, h.inputsOf_eq, positions]

/-- They give each position the same producers. -/
theorem producers_eq (consumer position : Nat) :
    s.producers consumer position = t.producers consumer position := by
  rw [producers, h.inputsOf_eq, producers]

/-- They give each consumer the same edges. -/
theorem sources_eq (consumer : Nat) : s.sources consumer = t.sources consumer := by
  rw [sources, h.inputsOf_eq, sources]

/-- They agree on whether a producer has a consumer. -/
theorem isConsumed_eq (producer : Nat) : s.isConsumed producer = t.isConsumed producer :=
  Std.TreeMap.Equiv.foldl_eq h

/-- Sets with the same groups answer every question alike. -/
theorem sameAnswers : s.SameAnswers t where
  toList := by
    rw [EdgeSet.toList, Grouping.toList, Std.TreeMap.Equiv.toList_eq h]
    rfl
  sources := h.sources_eq
  producers := h.producers_eq
  consumers := Std.TreeMap.Equiv.keys_eq h
  size := Std.TreeMap.Equiv.foldl_eq h
  isConsumed := h.isConsumed_eq

end SameGroups

end EdgeSet

/-! ## Texts -/

namespace View

/-- Everything that is written from the views is the same text. -/
structure SameTexts (v w : View) : Prop where
  describe : ∀ offset, v.describe offset = w.describe offset
  arguments : ∀ offset, v.arguments offset = w.arguments offset
  alternatives : ∀ consumer position,
    v.alternatives consumer position = w.alternatives consumer position
  edges : ∀ is, Listing.edges v.resolver v.edges is = Listing.edges w.resolver w.edges is
  statements : ∀ bs, Listing.statements v bs = Listing.statements w bs

/-- Views whose loops make the same turns run alike. -/
theorem run_eq_run {v w : View} (h : ∀ m, v.step m = w.step m) (m : Machine) :
    v.run m = w.run m := by
  induction m using run.induct v with
  | case1 m result hstep => rw [run_eq, run_eq, ← h, hstep]
  | case2 m m' hstep ih => rw [run_of_step hstep, run_of_step ((h m).symm.trans hstep), ih]

variable {instructions : Std.TreeMap Nat Instruction} {resolver : Resolver} {s t : EdgeSet}

/-- A turn of the loop asks only for positions and producers. -/
theorem step_eq_step (h : s.SameGroups t) (m : Machine) :
    (View.mk instructions s resolver).step m = (View.mk instructions t resolver).step m := by
  simp only [step, proceed, arrive, enter, h.positions_eq, h.producers_eq]
  rfl

/-- Views of the same edges write the same expression at every offset. -/
theorem render_eq_render (h : s.SameGroups t) :
    (View.mk instructions s resolver).render = (View.mk instructions t resolver).render := by
  funext offset visited
  exact run_eq_run (step_eq_step h) _

/-- Everything that is written from views of the same edges is the same text. -/
theorem sameTexts_of_sameGroups (h : s.SameGroups t) :
    (View.mk instructions s resolver).SameTexts (View.mk instructions t resolver) := by
  have hrender : (View.mk instructions s resolver).render =
      (View.mk instructions t resolver).render := render_eq_render h
  have hdescribe : (View.mk instructions s resolver).describe =
      (View.mk instructions t resolver).describe := by
    funext offset
    rw [describe, hrender, describe]
  have halternatives : (View.mk instructions s resolver).alternatives =
      (View.mk instructions t resolver).alternatives := by
    funext consumer position
    simp only [alternatives, h.producers_eq, hrender]
  have harguments : (View.mk instructions s resolver).arguments =
      (View.mk instructions t resolver).arguments := by
    funext offset
    simp only [arguments, h.producers_eq, h.positions_eq, hrender]
  have hstatement : Listing.statement? (View.mk instructions s resolver) =
      Listing.statement? (View.mk instructions t resolver) := by
    funext i
    simp only [Listing.statement?, Listing.storedValue, Listing.condition, input?, hdescribe,
      halternatives, harguments, h.isConsumed_eq]
  refine ⟨congrFun hdescribe, congrFun harguments,
    fun consumer => congrFun (congrFun halternatives consumer), ?_, ?_⟩
  · intro is
    simp only [Listing.edges, h.sources_eq]
  · intro bs
    simp only [Listing.statements, hstatement]

end View

end Provenance
