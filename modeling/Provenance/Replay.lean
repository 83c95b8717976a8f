import Provenance.Block.Basic
import Provenance.Edge
import Provenance.Effect
import Provenance.Event

/-!
# Replaying paths

A path is replayed on an evaluation stack whose entries are not values but the instructions that
left them there. Every pop is an edge from the instruction that pops to the one that pushed; a pop
of the empty stack yields no edge and is noted as a shortfall. A replay that meets an error stops
there and keeps what it has found.
-/

namespace Provenance

/-- Pops of the empty stack: the positions from `first` to before `stop` of an instruction. -/
structure Shortfall where
  instruction : Instruction
  first : Nat
  stop : Nat
  deriving DecidableEq

/-- A shortfall as an event. -/
def Shortfall.event (s : Shortfall) : Event :=
  .underflow s.instruction.offset s.instruction.name s.first s.stop

/-- The state of a replay. -/
structure Replay where
  /-- The producers on the stack, the top first. -/
  stack : List Nat := []
  /-- The edges found, the latest first. -/
  edges : List Edge := []
  /-- The pops of the empty stack, the latest first. -/
  shortfalls : List Shortfall := []
  /-- The error that stopped the replay. -/
  fault? : Option Error := none
  deriving DecidableEq

namespace Replay

/-- The replay that starts with a stack. -/
def ofStack (stack : List Nat) : Replay :=
  { stack }

/-- The edges of an instruction that takes these producers from the stack, the top first. -/
def pops (consumer : Nat) (producers : List Nat) : List Edge :=
  producers.zipIdx.map fun (producer, position) => ⟨consumer, position, producer⟩

/-- Carries out an instruction whose effect is known. -/
def apply (r : Replay) (i : Instruction) (effect : Effect) : Replay :=
  let taken := r.stack.take effect.pops
  { r with
    stack := List.replicate effect.pushes i.offset ++ r.stack.drop effect.pops
    edges := (pops i.offset taken).reverse ++ r.edges
    shortfalls :=
      if taken.length < effect.pops then ⟨i, taken.length, effect.pops⟩ :: r.shortfalls
      else r.shortfalls }

/-- Stops with an error. -/
def fail (r : Replay) (e : Error) : Replay :=
  { r with fault? := some e }

/-- Carries out an instruction. -/
def step (resolver : Resolver) (r : Replay) (i : Instruction) : Replay :=
  match r.fault? with
  | some _ => r
  | none =>
    match i.effect resolver r.stack.isEmpty with
    | .ok effect => r.apply i effect
    | .error e => r.fail e

/-- Carries out the instructions of a block. -/
def block (resolver : Resolver) (r : Replay) (b : Block) : Replay :=
  b.instructions.foldl (step resolver) r

/-- Carries out the block of `path` that starts at `start`. -/
def enter (resolver : Resolver) (blocks : Array Block) (path : Path) (r : Replay) (start : Nat) :
    Replay :=
  match r.fault? with
  | some _ => r
  | none =>
    match Block.find? blocks start with
    | some b => r.block resolver b
    | none => r.fail (.malformed (.strayPath path start))

/-- Replays a path, starting with the empty stack. -/
def path (resolver : Resolver) (blocks : Array Block) (p : Path) : Replay :=
  p.starts.foldl (enter resolver blocks p) {}

/-- The stack that a replay leaves, unless an error stopped it. -/
def outcome (r : Replay) : Except Error (List Nat) :=
  match r.fault? with
  | none => .ok r.stack
  | some e => .error e

/-- The events of a replay. -/
def events (r : Replay) : List Event :=
  (r.shortfalls.map Shortfall.event).reverse

/-- The events of the replay of a path. -/
def pathEvents (p : Path) (r : Replay) : List Event :=
  match r.fault? with
  | none => r.events ++ [.replayed p r.stack.length]
  | some _ => r.events

end Replay

/-- The replays of several paths. -/
structure Simulation where
  /-- The edges found so far. -/
  edges : EdgeSet
  /-- The events so far, those of the latest replay first. -/
  events : List (List Event) := []
  /-- The error that stopped the simulation. -/
  fault? : Option Error := none

namespace Simulation

/-- Replays one more path. -/
def add (resolver : Resolver) (blocks : Array Block) (s : Simulation) (p : Path) : Simulation :=
  match s.fault? with
  | some _ => s
  | none =>
    let r := Replay.path resolver blocks p
    { edges := s.edges.insertAll r.edges.reverse
      events := r.pathEvents p :: s.events
      fault? := r.fault? }

/-- Replays paths in their order, adding to edges found before. -/
def run (resolver : Resolver) (blocks : Array Block) (edges : EdgeSet) (paths : List Path) :
    Simulation :=
  paths.foldl (add resolver blocks) { edges }

/-- The edges found, unless an error stopped the simulation, and the events on the way. -/
def traced (s : Simulation) (paths : Nat) : Traced EdgeSet :=
  let events := s.events.reverse.flatten
  match s.fault? with
  | none => ⟨events ++ [.replayedAll paths s.edges.size], .ok s.edges⟩
  | some e => ⟨events, .error e⟩

end Simulation

end Provenance
