import Provenance.Edge
import Provenance.Instruction.Basic
import Std.Data.ExtTreeSet
import Std.Data.TreeMap.Lemmas

/-!
# Expressions

What an instruction computes is written as an expression: the instruction's text, followed by its
inputs in parentheses. Inputs stand in the order in which they were pushed, so the highest position
comes first, and alternative producers of one input are joined by `or`. An expression that contains
itself is cut off where it comes back.

Expressions nest as deep as values depend on each other, so they are not written by recursion. The
instructions whose inputs are still being written are kept on a stack of frames (`View.Machine`),
and `View.step` does one turn of the loop over it. The loop ends: the number of turns that are left
is bounded by `View.remaining`, which each turn makes smaller.
-/

namespace Provenance

/-- A set of offsets. -/
abbrev Offsets := Std.ExtTreeSet Nat

/-- What rendering reads of an analysed method. -/
structure View where
  /-- The instructions by their offset. -/
  instructions : Std.TreeMap Nat Instruction
  edges : EdgeSet
  resolver : Resolver

namespace View

/-- The view of a method with these instructions. Of several at one offset the last counts. -/
def ofList (instructions : List Instruction) (edges : EdgeSet) (resolver : Resolver) : View :=
  ⟨instructions.foldl (fun known i => known.insert i.offset i) ∅, edges, resolver⟩

/-- What stands for a value about which nothing is known. -/
def unknown : String := "/* unknown */"

/-- What stands for an expression that contains itself. -/
def recursive (offset : Nat) : String :=
  "/* recursive " ++ label offset ++ " */"

/-- The instruction at an offset. -/
def instruction? (v : View) (offset : Nat) : Option Instruction :=
  v.instructions[offset]?

/-- The text of the instruction at an offset, without its inputs. -/
def leaf (v : View) (offset : Nat) : String :=
  match v.instruction? offset with
  | some i => i.text v.resolver
  | none => unknown

/-! ## The machine -/

/-- An instruction whose inputs are still being written. -/
structure Frame where
  offset : Nat
  leaf : String
  /-- The positions still to be written, in descending order. -/
  positions : List Nat
  /-- The producers of the current position still to be written, in ascending order. -/
  producers : List Nat
  /-- What was written of the current position, the latest first. -/
  alternatives : List String
  /-- The inputs that were written, the latest first. -/
  arguments : List String

/-- The state of the loop. -/
structure Machine where
  /-- The frames, the innermost first. -/
  frames : List Frame
  /-- The offsets of the expressions around what is being written. -/
  visited : Offsets
  /-- The offset whose expression is to be written next. -/
  next? : Option Nat
  /-- The expression that was written last, if no frame has taken it yet. -/
  finished? : Option String

/-- What an offset leads to: a text, or a frame. -/
inductive Entered
  | done (text : String)
  | descend (frame : Frame)

/-- Turns to the expression at an offset. -/
def enter (v : View) (visited : Offsets) (offset : Nat) : Entered × Offsets :=
  match v.instruction? offset with
  | none => (.done unknown, visited)
  | some _ =>
    if offset ∈ visited then (.done (recursive offset), visited)
    else
      let positions := v.edges.positions offset
      if positions.isEmpty then (.done (v.leaf offset), (visited.insert offset).erase offset)
      else (.descend ⟨offset, v.leaf offset, positions.reverse, [], [], []⟩, visited.insert offset)

/-- The first half of a turn: turns to the next expression, if there is one. -/
def arrive (v : View) (m : Machine) : Machine :=
  match m.next? with
  | none => m
  | some offset =>
    match v.enter m.visited offset with
    | (.done text, visited) => { m with visited, next? := none, finished? := some text }
    | (.descend frame, visited) =>
      { m with frames := frame :: m.frames, visited, next? := none }

/-- The second half of a turn: goes on with the innermost frame. If there is none, the loop ends. -/
def proceed (v : View) (m : Machine) : (String × Offsets) ⊕ Machine :=
  match m.frames with
  | [] => .inl (m.finished?.getD "", m.visited)
  | top :: rest =>
    let alternatives := m.finished?.toList ++ top.alternatives
    match top.producers with
    | producer :: producers =>
      .inr ⟨{ top with producers, alternatives } :: rest, m.visited, some producer, none⟩
    | [] =>
      let arguments :=
        if alternatives.isEmpty then top.arguments
        else " or ".intercalate alternatives.reverse :: top.arguments
      match top.positions with
      | position :: positions =>
        let producers := v.edges.producers top.offset position
        .inr ⟨⟨top.offset, top.leaf, positions, producers, [], arguments⟩ :: rest, m.visited, none,
          none⟩
      | [] =>
        let text := top.leaf ++ "(" ++ ", ".intercalate arguments.reverse ++ ")"
        .inr ⟨rest, m.visited.erase top.offset, none, some text⟩

/-- A turn of the loop. -/
def step (v : View) (m : Machine) : (String × Offsets) ⊕ Machine :=
  v.proceed (v.arrive m)

/-! ## The number of turns -/

/-- Number of instructions that are not among the visited ones. -/
def fresh (v : View) (visited : Offsets) : Nat :=
  v.instructions.keys.countP (· ∉ visited)

/-- A weaker test that holds of one more element counts more. -/
theorem countP_lt_countP {α : Type} {p q : α → Bool} (weaker : ∀ a, q a → p a) {a : α}
    (hp : p a) (hq : ¬ q a) : ∀ {l : List α}, a ∈ l → l.countP q < l.countP p
  | b :: rest, h => by
    have le : rest.countP q ≤ rest.countP p := List.countP_mono_left fun c _ => weaker c
    rcases List.mem_cons.mp h with rfl | h
    · simp only [List.countP_cons_of_pos hp, List.countP_cons_of_neg hq]
      omega
    · have lt := countP_lt_countP weaker hp hq h
      by_cases hb : q b
      · simp only [List.countP_cons_of_pos (weaker b hb), List.countP_cons_of_pos hb]
        omega
      · rw [List.countP_cons_of_neg hb]
        exact Nat.lt_of_lt_of_le lt (List.countP_cons ▸ Nat.le_add_right _ _)

/-- An instruction that has not been visited is used up when it is. -/
theorem fresh_insert_lt {v : View} {visited : Offsets} {offset : Nat}
    (hi : offset ∈ v.instructions) (hnew : offset ∉ visited) :
    v.fresh (visited.insert offset) < v.fresh visited := by
  refine countP_lt_countP ?_ ?_ ?_ (Std.TreeMap.mem_keys.mpr hi)
  · simp only [decide_eq_true_eq, Std.ExtTreeSet.mem_insert]
    exact fun k hk hmem => hk (.inr hmem)
  · simpa using hnew
  · simp

/-- How many turns an offset can lead to before its expression is written. -/
def work (v : View) (visited : Offsets) (offset : Nat) : Nat :=
  if h : offset ∈ v.instructions ∧ offset ∉ visited then
    1 + (v.edges.positions offset).reverse.foldr (fun position turns =>
      1 + (v.edges.producers offset position).foldr (fun producer turns =>
        1 + work v (visited.insert offset) producer + turns) 0 + turns) 0
  else 0
termination_by v.fresh visited
decreasing_by exact fresh_insert_lt h.1 h.2

/-- How many turns some producers can lead to. -/
def producersWork (v : View) (visited : Offsets) (producers : List Nat) : Nat :=
  producers.foldr (fun producer turns => 1 + v.work visited producer + turns) 0

/-- How many turns a frame can lead to before it is left. -/
def frameWork (v : View) (visited : Offsets) (f : Frame) : Nat :=
  1 + v.producersWork visited f.producers +
    f.positions.foldr (fun position turns =>
      1 + v.producersWork visited (v.edges.producers f.offset position) + turns) 0

/-- How many turns frames can lead to. -/
def framesWork (v : View) : (visited : Offsets) → List Frame → Nat
  | _, [] => 0
  | visited, f :: rest => v.frameWork visited f + v.framesWork (visited.erase f.offset) rest

/-- How many turns the loop can still make. -/
def remaining (v : View) (m : Machine) : Nat :=
  (m.next?.elim 0 (v.work m.visited)) + v.framesWork m.visited m.frames

/-- A set is as before when an element is added and taken away again. -/
theorem erase_insert {visited : Offsets} {offset : Nat} (h : offset ∉ visited) :
    (visited.insert offset).erase offset = visited := by
  refine Std.ExtTreeSet.ext_mem fun k => ?_
  simp only [Std.ExtTreeSet.mem_erase, Std.ExtTreeSet.mem_insert, ne_eq,
    Std.LawfulEqCmp.compare_eq_iff_eq]
  refine ⟨fun ⟨hne, hk⟩ => hk.resolve_left hne, fun hk => ⟨?_, .inr hk⟩⟩
  rintro rfl
  exact h hk

/-- An offset leads to a text and leaves the visited offsets as they were, or it leads to a frame
for an instruction that has not been visited. -/
theorem enter_cases (v : View) (visited : Offsets) (offset : Nat) :
    (∃ text, v.enter visited offset = (.done text, visited)) ∨
      offset ∈ v.instructions ∧ offset ∉ visited ∧ v.enter visited offset =
        (.descend ⟨offset, v.leaf offset, (v.edges.positions offset).reverse, [], [], []⟩,
          visited.insert offset) := by
  unfold enter
  split
  · exact .inl ⟨_, rfl⟩
  · next hknown =>
    split
    · exact .inl ⟨_, rfl⟩
    · next hnew =>
      simp only
      split
      · exact .inl ⟨_, by rw [erase_insert hnew]⟩
      · refine .inr ⟨?_, hnew, rfl⟩
        rw [Std.TreeMap.mem_iff_isSome_getElem?, ← instruction?, hknown]
        rfl

/-- Turning to an expression adds no turns. -/
theorem remaining_arrive_le (v : View) (m : Machine) :
    v.remaining (v.arrive m) ≤ v.remaining m := by
  obtain ⟨frames, visited, next?, finished?⟩ := m
  cases next? with
  | none => exact Nat.le_refl _
  | some offset =>
    rcases v.enter_cases visited offset with ⟨text, henter⟩ | ⟨hknown, hnew, henter⟩
    · simp only [arrive, henter, remaining, Option.elim]
      omega
    · have hwork : v.work visited offset = v.frameWork (visited.insert offset)
          ⟨offset, v.leaf offset, (v.edges.positions offset).reverse, [], [], []⟩ := by
        rw [work, dif_pos ⟨hknown, hnew⟩]
        rfl
      simp only [arrive, henter, remaining, Option.elim, framesWork, erase_insert hnew, hwork]
      omega

/-- Going on with the innermost frame uses up a turn. -/
theorem remaining_lt_of_proceed {v : View} {m m' : Machine} (h : v.proceed m = .inr m') :
    v.remaining m' < v.remaining m := by
  obtain ⟨frames, visited, next?, finished?⟩ := m
  cases frames with
  | nil => cases h
  | cons top rest =>
    obtain ⟨offset, leaf, positions, producers, alternatives, arguments⟩ := top
    cases producers with
    | cons producer producers =>
      cases h
      simp only [remaining, Option.elim_some, framesWork, frameWork, producersWork,
        List.foldr_cons]
      omega
    | nil =>
      cases positions with
      | cons position positions =>
        cases h
        simp only [remaining, Option.elim_none, framesWork, frameWork, producersWork,
          List.foldr_cons, List.foldr_nil]
        omega
      | nil =>
        cases h
        simp only [remaining, Option.elim_none, framesWork, frameWork]
        omega

/-- Each turn of the loop leaves fewer. -/
theorem remaining_lt_of_step {v : View} {m m' : Machine} (h : v.step m = .inr m') :
    v.remaining m' < v.remaining m :=
  Nat.lt_of_lt_of_le (remaining_lt_of_proceed h) (v.remaining_arrive_le m)

/-! ## Rendering -/

/-- Runs the loop to its end: the expression and the visited offsets. -/
def run (v : View) (m : Machine) : String × Offsets :=
  match _h : v.step m with
  | .inl result => result
  | .inr m => v.run m
termination_by v.remaining m
decreasing_by exact remaining_lt_of_step _h

/-- The state in which the loop starts. -/
def start (visited : Offsets) (offset : Nat) : Machine :=
  ⟨[], visited, some offset, none⟩

/-- The expression at an offset, inside the expressions of the visited offsets. -/
def render (v : View) (offset : Nat) : StateM Offsets String := fun visited =>
  v.run (start visited offset)

/-- The expression at an offset. -/
def describe (v : View) (offset : Nat) : String :=
  (v.render offset ∅).1

/-- The expressions that may be the input of a consumer at a position. -/
def alternatives (v : View) (consumer position : Nat) : List String :=
  ((v.edges.producers consumer position).mapM v.render {consumer}).1

/-- The alternatives for an input as one text, if there are any. -/
def input? (v : View) (consumer position : Nat) : Option String :=
  let alternatives := v.alternatives consumer position
  if alternatives.isEmpty then none else some (" or ".intercalate alternatives)

/-- The inputs of an instruction, in the order in which they were pushed. -/
def arguments (v : View) (offset : Nat) : List String :=
  let input (position : Nat) : StateM Offsets String := do
    return " or ".intercalate (← (v.edges.producers offset position).mapM v.render)
  ((v.edges.positions offset).reverse.mapM input {offset}).1

end View

end Provenance
