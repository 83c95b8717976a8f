import Provenance.Block.Partition
import Provenance.Instruction.Decode
import Provenance.Listing
import Provenance.Path.Explore
import Provenance.Replay

/-!
# Analysing a method

The whole way from the bytes of a method body to its data flow: decoding, cutting into blocks,
exploring the paths, and replaying each of them. Every stage reports its events.
-/

namespace Provenance

/-- Decodes a method body. -/
def Traced.decode (bytes : List UInt8) : Traced (List Instruction) :=
  (ofExcept (Body.decode bytes)).report fun is => .decoded is.length bytes.length

/-- Cuts a body into blocks. -/
def Traced.partition (instructions : List Instruction) (length : Nat) (clauses : List Clause) :
    Traced (Array Block) :=
  (ofExcept (Block.partition instructions length clauses)).report fun blocks =>
    .partitioned instructions.length blocks.size

namespace Exploration

/-- The events of a step after the paths in `before` were found. -/
def stepEvents (before : PathSet) (step : Step) : List Event :=
  .visiting step.visit ::
    match step.ending? with
    | some .returned =>
      if before.contains step.visit.path.key then [] else [.recorded (before.size + 1)]
    | some .uncaughtThrow => [.uncaughtThrow step.visit]
    | some .fellOff => [.fellOff step.visit]
    | none => []

/-- The events of an exploration. -/
def events (x : Exploration) : List Event :=
  let (_, groups) := x.steps.foldl
    (fun (before, groups) step => (record before step, stepEvents before step :: groups))
    (PathSet.empty, [])
  groups.reverse.flatten

end Exploration

/-- Explores the paths of a method. -/
def Traced.paths (g : Graph) : Traced PathSet :=
  bind (ofExcept g.entry) fun entry =>
    let x := g.explore entry
    report ⟨x.events, x.outcome⟩ fun paths => .enumerated paths.size g.blocks.size

/-- Replays the paths of a method. -/
def Traced.simulate (resolver : Resolver) (blocks : Array Block) (paths : PathSet) :
    Traced EdgeSet :=
  (Simulation.run resolver blocks .empty paths.toList).traced paths.size

/-- An analysed method. -/
structure Analysis where
  instructions : List Instruction
  blocks : Array Block
  paths : PathSet
  edges : EdgeSet

namespace Analysis

/-- Analyses a method body, reporting events. -/
def trace (bytes : List UInt8) (clauses : List Clause) (resolver : Resolver)
    (settings : Settings) : Traced Analysis :=
  if bytes.isEmpty then .ofExcept (.error .empty)
  else
    let analysis : Traced Analysis := do
      let instructions ← .decode bytes
      let blocks ← .partition instructions bytes.length clauses
      let paths ← .paths ⟨blocks, clauses, settings⟩
      let edges ← .simulate resolver blocks paths
      return ⟨instructions, blocks, paths, edges⟩
    analysis.report fun a =>
      .analysed bytes.length a.instructions.length a.blocks.size a.paths.size a.edges.size

/-- Analyses a method body. -/
def ofBytes (bytes : List UInt8) (clauses : List Clause) (resolver : Resolver)
    (settings : Settings) : Except Error Analysis :=
  (trace bytes clauses resolver settings).outcome

/-- What rendering needs of an analysis. -/
def view (a : Analysis) (resolver : Resolver) : View :=
  .ofList a.instructions a.edges resolver

/-- The size of an analysis, for inspection. -/
def inspect (a : Analysis) : String :=
  s!"MethodAnalysis \x7b instructions: {a.instructions.length}, runs: {a.blocks.size}, " ++
    s!"paths: {a.paths.size}, edges: {a.edges.size}, .. \x7d"

end Analysis

end Provenance
