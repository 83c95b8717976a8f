import Provenance.Path.Explore

/-!
# Events

An analysis reports what happens on the way as events. Each event has a level, by which a reader
chooses what to see, and a message; an event that stands for several pops has one for each.
-/

namespace Provenance

/-- How much a reader wants to see. -/
inductive Level
  | warn | debug | trace
  deriving DecidableEq

namespace Level

/-- The name of a level. -/
def name : Level → String
  | .warn => "WARN"
  | .debug => "DEBUG"
  | .trace => "TRACE"

/-- The place of a level, the most severe first. -/
def rank : Level → Nat
  | .warn => 0
  | .debug => 1
  | .trace => 2

end Level

/-- Something that happens during an analysis. -/
inductive Event
  /-- A body was decoded. -/
  | decoded (instructions bytes : Nat)
  /-- A body was cut into blocks. -/
  | partitioned (instructions blocks : Nat)
  /-- A block was reached. -/
  | visiting (visit : Visit)
  /-- A path returned and was not found before. -/
  | recorded (number : Nat)
  /-- A path ended with an exception that the method does not catch. -/
  | uncaughtThrow (visit : Visit)
  /-- A path ended with an instruction that nothing follows. -/
  | fellOff (visit : Visit)
  /-- Every path was explored. -/
  | enumerated (paths blocks : Nat)
  /-- An instruction popped an empty stack at the positions from `first` to before `stop`. -/
  | underflow (offset : Nat) (mnemonic : String) (first stop : Nat)
  /-- A path was replayed. -/
  | replayed (path : Path) (depth : Nat)
  /-- Every path was replayed. -/
  | replayedAll (paths edges : Nat)
  /-- A method was analysed. -/
  | analysed (bytes instructions blocks paths edges : Nat)

namespace Event

/-- The level of an event. -/
def level : Event → Level
  | .fellOff .. | .underflow .. => .warn
  | .partitioned .. | .enumerated .. | .replayedAll .. | .analysed .. => .debug
  | .decoded .. | .visiting .. | .recorded .. | .uncaughtThrow .. | .replayed .. => .trace

/-- The messages of an event. -/
def messages : Event → List String
  | .decoded instructions bytes => [s!"decoded {instructions} instructions from {bytes} bytes"]
  | .partitioned instructions blocks =>
    [s!"partitioned {instructions} instructions into {blocks} runs"]
  | .visiting visit => ["visiting " ++ visit.path.key]
  | .recorded number => [s!"recorded path #{number}"]
  | .uncaughtThrow visit =>
    [s!"path {visit.path.key} ends in an uncaught throw at {label visit.block.last.offset}"]
  | .fellOff visit =>
    [s!"dropping path {visit.path.key}: execution falls off the method after " ++
      label visit.block.last.offset]
  | .enumerated paths blocks => [s!"enumerated {paths} paths over {blocks} runs"]
  | .underflow offset mnemonic first stop =>
    (List.range' first (stop - first)).map fun position =>
      s!"stack underflow at {label offset} ({mnemonic}), pop #{position} has no producer"
  | .replayed path depth => [s!"simulated {path.key}, final depth {depth}"]
  | .replayedAll paths edges => [s!"simulated {paths} paths, {edges} data-flow edges"]
  | .analysed bytes instructions blocks paths edges =>
    [s!"analysed {bytes} bytes: {instructions} instructions, {blocks} runs, {paths} paths, " ++
      s!"{edges} edges"]

/-- The lines of an event for a reader who wants to see everything up to `limit`. -/
def lines (limit : Level) (e : Event) : List String :=
  if e.level.rank ≤ limit.rank then e.messages.map (e.level.name ++ " " ++ ·) else []

end Event

/-- The outcome of an operation together with the events on the way, which are kept also if it
fails. -/
structure Traced (α : Type) where
  events : List Event
  outcome : Except Error α

namespace Traced

variable {α β : Type}

/-- An operation that reports nothing. -/
def ofExcept (outcome : Except Error α) : Traced α :=
  ⟨[], outcome⟩

/-- Reports one more event if the operation succeeds. -/
def report (t : Traced α) (event : α → Event) : Traced α :=
  match t.outcome with
  | .ok a => ⟨t.events ++ [event a], .ok a⟩
  | .error e => ⟨t.events, .error e⟩

/-- Goes on with the result of an operation. -/
def bind (t : Traced α) (f : α → Traced β) : Traced β :=
  match t.outcome with
  | .ok a => ⟨t.events ++ (f a).events, (f a).outcome⟩
  | .error e => ⟨t.events, .error e⟩

instance : Monad Traced where
  pure a := ⟨[], .ok a⟩
  bind := bind

end Traced

end Provenance
