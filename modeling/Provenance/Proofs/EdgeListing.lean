import Mathlib.Algebra.BigOperators.Group.List.Basic
import Provenance.Proofs.DataFlow
import Provenance.Proofs.EdgeHistory

/-!
# Listing the edges of a method

In the listing of a method's edges, each edge stands below the instruction that consumes it. No edge
is lost, because every consumer is an instruction of the method, and none is listed twice, because
the instructions ascend (`EdgeSet.Holds.flatMap_sources`). So what is listed is every edge that
replaying one of the paths records, and the edges are listed in their order
(`Analysis.edges_listed`).
-/

namespace Provenance

/-- If every consumer is the offset of one of the instructions, and these ascend, the edges of the
instructions in a row are all edges. -/
theorem EdgeSet.Holds.flatMap_sources {s : EdgeSet} {recorded : Finset Edge} (h : s.Holds recorded)
    {is : List Instruction} (hascending : is.Pairwise (·.offset < ·.offset))
    (hconsumer : ∀ e ∈ recorded, ∃ i ∈ is, i.offset = e.consumer) :
    is.flatMap (fun i => s.sources i.offset) = s.toList := by
  have hsources : ∀ {i : Instruction} {e : Edge},
      e ∈ s.sources i.offset ↔ e ∈ recorded ∧ e.consumer = i.offset :=
    fun {i e} => (h.enumerates_sources i.offset).mem_iff e
  have hpairwise : (is.flatMap fun i => s.sources i.offset).Pairwise (· < ·) := by
    refine List.pairwise_flatMap.mpr ⟨fun i _ => (h.enumerates_sources i.offset).ascending, ?_⟩
    refine hascending.imp fun {i j} hlt a ha b hb => .inl ?_
    rw [(hsources.mp ha).2, (hsources.mp hb).2]
    exact hlt
  refine hpairwise.eq_of_mem_iff h.enumerates_toList.ascending fun e => ?_
  rw [h.enumerates_toList.mem_iff, List.mem_flatMap]
  refine ⟨fun ⟨i, _, he⟩ => (hsources.mp he).1, fun he => ?_⟩
  obtain ⟨i, hi, hoffset⟩ := hconsumer e he
  exact ⟨i, hi, hsources.mpr ⟨he, hoffset.symm⟩⟩

/-- The line of an edge has its position and the label of its producer. -/
theorem Listing.edge_append_newline (e : Edge) :
    edge e ++ "\n" =
      s!"    // pop#{e.input.position} using result of {label e.input.producer}\n" := by
  rw [edge, indent]
  simp only [← String.append_assoc]
  rfl

namespace Analysis

/-- The listing of the edges has a line for each instruction, and below it a line for each of some
inputs. These are the sources of the instruction, which are what replaying the paths records for it,
by position and producer, and altogether there are as many as there are edges. -/
structure Annotated (a : Analysis) (resolver : Resolver) (inputs : Instruction → List Input) :
    Prop where
  text : Listing.edges resolver a.edges a.instructions =
    String.join (a.instructions.flatMap fun i => (i.render resolver ++ "\n") ::
      (inputs i).map fun input =>
        s!"    // pop#{input.position} using result of {label input.producer}\n")
  sources : ∀ i ∈ a.instructions, a.edges.sources i.offset = (inputs i).map (⟨i.offset, ·⟩)
  recorded : ∀ i ∈ a.instructions, Enumerates (inputs i) fun input =>
    ∃ p ∈ a.paths.toList, ⟨i.offset, input⟩ ∈ Replay.records resolver a.blocks p
  total : (a.instructions.map fun i => (inputs i).length).sum = a.edges.size

section

variable {bytes : List UInt8} {clauses : List Clause} {resolver : Resolver} {settings : Settings}
variable {a : Analysis} (h : ofBytes bytes clauses resolver settings = .ok a)

include h

/-- An analysis stores what replaying its paths records. -/
theorem holds_edges : a.edges.Holds
    (a.paths.toList.flatMap (Replay.records resolver a.blocks)).toFinset := by
  obtain ⟨-, -, -, hedges⟩ := ofBytes_eq_ok_iff.mp h
  rw [(Simulation.outcome_run_eq_ok_iff.mp hedges).2]
  exact EdgeSet.holds_insertAll _

/-- The edges of the instructions in a row are all edges of an analysis. -/
theorem flatMap_sources_eq :
    a.instructions.flatMap (fun i => a.edges.sources i.offset) = a.edges.toList := by
  obtain ⟨hread, -, -, -⟩ := ofBytes_eq_ok_iff.mp h
  have hholds := holds_edges h
  refine hholds.flatMap_sources (Body.pairwise_of_decode hread) fun e he => ?_
  have hmem := (hholds.enumerates_toList.mem_iff e).mpr he
  obtain ⟨_, _, consumer, hconsumer, _, _, _, _, hjoins⟩ := exists_joins_of_mem_edges h hmem
  exact ⟨consumer, hconsumer, hjoins.consumer_offset⟩

end

/-- The listing of the edges of an analysis loses no edge and invents none: the edges of the
instructions in a row are all its edges in their order, and below each instruction the listing has
one line for each input that was recorded for it. -/
theorem edges_listed {bytes : List UInt8} {clauses : List Clause} {resolver : Resolver}
    {settings : Settings} {a : Analysis} (h : ofBytes bytes clauses resolver settings = .ok a) :
    a.instructions.flatMap (fun i => a.edges.sources i.offset) = a.edges.toList ∧
      ∃ inputs, a.Annotated resolver inputs := by
  have hholds := holds_edges h
  have hall := flatMap_sources_eq h
  refine ⟨hall, fun i => a.edges.inputsOf i.offset, ?_, fun _ _ => rfl,
    fun i _ => ⟨hholds.ascending _, ?_⟩, ?_⟩
  · simp only [Listing.edges, Listing.ofLines_eq_join, List.map_flatMap, List.map_cons,
      EdgeSet.sources, List.map_map, Function.comp_def, Listing.edge_append_newline]
  · intro input
    rw [hholds.mem_iff ⟨i.offset, input⟩, List.mem_toFinset, List.mem_flatMap]
  · have hlength := congrArg List.length hall
    rw [List.length_flatMap, EdgeSet.toList, List.length_map, ← Grouping.size_eq_length,
      ← EdgeSet.size] at hlength
    simpa only [EdgeSet.sources, List.length_map] using hlength

/-- The listing of a method that adds its arguments and returns the sum. -/
def sumListing : String :=
"IL_0000: ldarg.0
IL_0001: ldarg.1
IL_0002: add
    // pop#0 using result of IL_0001
    // pop#1 using result of IL_0000
IL_0003: ret
    // pop#0 using result of IL_0002
"

/-- A method that adds its arguments and returns the sum. -/
theorem edges_listed_sum :
    ∃ a, ofBytes Body.sum [] .unknown ⟨2, true⟩ = .ok a ∧
      Listing.edges .unknown a.edges a.instructions = sumListing ∧
      a.instructions.flatMap (fun i => a.edges.sources i.offset) = a.edges.toList ∧
      ∃ inputs, a.Annotated .unknown inputs := by
  have hok : (ofBytes Body.sum [] .unknown ⟨2, true⟩).bind
      (fun a => .ok (Listing.edges .unknown a.edges a.instructions)) =
        .ok sumListing := by cbv
  obtain ⟨a, ha, htext⟩ := bind_eq_ok_iff.mp hok
  exact ⟨a, ha, Except.ok.inj htext, edges_listed ha⟩

end Analysis

end Provenance
