import Provenance.Block.Basic
import Provenance.Clause
import Provenance.Error

/-!
# Exploring paths

The paths of a method are explored breadth first from its entry block. A visit is a path under way:
the block it has reached, and the block starts recorded so far. How it goes on is decided by the
last instruction of its block:

* an unconditional branch goes to its target; if it leaves the protected range of a finally clause,
  the start of the handler is recorded on the way;
* a conditional branch goes to each of its distinct targets and to what follows it;
* a return ends the path, which is then one of the method's paths;
* a throw that no clause of the method catches ends it too;
* after any other instruction the path goes on with what follows.

A block is entered only while its start occurs at most `revisitLimit` times in the path. So along a
path each block is entered at most `revisitLimit + 1` times, and the exploration ends.
-/

namespace Provenance

/-- What an analysis can be told to do. -/
structure Settings where
  /-- How often a path may already contain a block that it enters. -/
  revisitLimit : Nat := 2
  /-- Whether paths record the handlers of the finally clauses that they leave. -/
  modelFinally : Bool := true
  deriving DecidableEq

/-- A path under way. -/
structure Visit where
  /-- The block that has been reached. -/
  block : Block
  /-- The block starts recorded so far, the latest first. -/
  trail : List Nat
  deriving DecidableEq

/-- The path that a visit has taken. -/
def Visit.path (v : Visit) : Path :=
  ⟨v.trail.reverse⟩

/-- Why a path does not go on. -/
inductive Ending
  /-- The method returns. -/
  | returned
  /-- An exception leaves the method. -/
  | uncaughtThrow
  /-- Nothing follows the last instruction. -/
  | fellOff
  deriving DecidableEq

/-- How a path goes on: the visits that come next and, if one of its ways ends here, why. -/
structure Expansion where
  next : List Visit
  ending? : Option Ending

/-- A method as exploration sees it. -/
structure Graph where
  blocks : Array Block
  clauses : List Clause
  settings : Settings

namespace Graph

/-- Whether a path may enter a block. -/
def admits (g : Graph) (trail : List Nat) (start : Nat) : Bool :=
  trail.count start ≤ g.settings.revisitLimit

/-- The clause whose finally handler runs when control goes from `source` to `target`. -/
def leftFinally? (g : Graph) (source target : Nat) : Option Clause :=
  if g.settings.modelFinally then
    g.clauses.find? fun c => c.isFinally && c.tryContains source && !c.tryContains target
  else none

/-- Whether an exception thrown at an offset can be handled in the method. -/
def catches (g : Graph) (offset : Nat) : Bool :=
  g.clauses.any fun c => c.handlesExceptions && c.tryContains offset

/-- The visit that enters a block, if the path may. -/
def enter? (g : Graph) (trail : List Nat) (block : Block) : Option Visit :=
  if g.admits trail block.start then some ⟨block, block.start :: trail⟩ else none

/-- Follows a branch. -/
def branch (g : Graph) (trail : List Nat) (source : Instruction) (target : Nat) :
    Except Error (Option Visit) :=
  match Block.find? g.blocks target with
  | some block => .ok (g.enter? trail block)
  | none => .error (.malformed (.strayBranch source.offset target))

/-- Goes on with what follows an instruction. -/
def fallThrough (g : Graph) (trail : List Nat) (source : Instruction) : Expansion :=
  if g.admits trail source.next then
    match Block.find? g.blocks source.next with
    | some block => ⟨[⟨block, block.start :: trail⟩], none⟩
    | none => ⟨[], some .fellOff⟩
  else ⟨[], none⟩

/-- How a path goes on. -/
def expand (g : Graph) (v : Visit) : Except Error Expansion :=
  let last := v.block.last
  match last.flow with
  | .unconditionalBranch =>
    match last.branchTarget? with
    | none => .ok ⟨[], none⟩
    | some target => do
      let handlers := (g.leftFinally? last.offset target).map Clause.handlerStart
      let visit? ← g.branch (handlers.toList ++ v.trail) last target
      return ⟨visit?.toList, none⟩
  | .conditionalBranch => do
    let taken ← last.targets.eraseDups.mapM (g.branch v.trail last)
    let notTaken := g.fallThrough v.trail last
    return ⟨taken.flatMap Option.toList ++ notTaken.next, notTaken.ending?⟩
  | .returns => .ok ⟨[], some .returned⟩
  | .throws =>
    if g.catches last.offset then .ok (g.fallThrough v.trail last)
    else .ok ⟨[], some .uncaughtThrow⟩
  | _ => .ok (g.fallThrough v.trail last)

end Graph

/-- A visit that was made, and why its path ended there, if it did. -/
structure Step where
  visit : Visit
  ending? : Option Ending

/-- The visits of an exploration in the order in which they were made, and the error that stopped
it, if one did. -/
structure Exploration where
  steps : List Step
  fault? : Option Error

namespace Graph

/-- Makes the visits of one level. `done` are the steps before them and `next` the visits found for
the level after, both the latest first. -/
def sweep (g : Graph) : (level : List Visit) → (done : List Step) → (next : List Visit) →
    List Step × Except Error (List Visit)
  | [], done, next => (done, .ok next.reverse)
  | v :: rest, done, next =>
    match g.expand v with
    | .error e => (⟨v, none⟩ :: done, .error e)
    | .ok x => g.sweep rest (⟨v, x.ending?⟩ :: done) (x.next.reverse ++ next)

/-- Makes the visits of at most `depth` levels. -/
def walk (g : Graph) : (depth : Nat) → (level : List Visit) → (done : List Step) → Exploration
  | 0, _, done => ⟨done.reverse, none⟩
  | depth + 1, level, done =>
    match g.sweep level done [] with
    | (done, .error e) => ⟨done.reverse, some e⟩
    | (done, .ok []) => ⟨done.reverse, none⟩
    | (done, .ok next) => g.walk depth next done

/-- The most visits that a path can make. -/
def depth (g : Graph) : Nat :=
  (g.settings.revisitLimit + 1) * g.blocks.size

/-- Explores every path from a block. -/
def explore (g : Graph) (entry : Block) : Exploration :=
  g.walk g.depth [⟨entry, [entry.start]⟩] []

/-- The block with which the method starts. -/
def entry (g : Graph) : Except Error Block :=
  if g.blocks.isEmpty then .error .empty
  else
    match g.blocks.find? Block.isEntry with
    | some block => .ok block
    | none => .error (.malformed .noMethodEntry)

end Graph

namespace Exploration

/-- Adds the path of a step that returns. -/
def record (paths : PathSet) (step : Step) : PathSet :=
  if step.ending? = some .returned then paths.insert step.visit.path else paths

/-- The paths that return, in the order of discovery. -/
def paths (x : Exploration) : PathSet :=
  x.steps.foldl record .empty

/-- The paths that return, unless an error stopped the exploration. -/
def outcome (x : Exploration) : Except Error PathSet :=
  match x.fault? with
  | none => .ok x.paths
  | some e => .error e

end Exploration

/-- The distinct paths of a method from its entry to a return. -/
def Graph.paths (g : Graph) : Except Error PathSet := do
  let entry ← g.entry
  (g.explore entry).outcome

end Provenance
