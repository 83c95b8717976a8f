import Provenance.Block.Basic
import Provenance.Expression

/-!
# Listings

A method as text, one line for each instruction, block, edge or statement. A statement is an
instruction that does more than compute a value for a later one: it stores a variable, calls for
effect, returns or branches.
-/

namespace Provenance.Listing

/-- Lines, each with an end of line. -/
def ofLines (lines : List String) : String :=
  lines.foldl (fun text line => text ++ line ++ "\n") ""

/-- A text is its lines one after the other. -/
theorem ofLines_eq_join (lines : List String) :
    ofLines lines = String.join (lines.map (· ++ "\n")) := by
  unfold ofLines String.join
  simp only [List.foldl_map, String.append_assoc]

/-- A line inside a block. -/
def indent (line : String) : String :=
  "    " ++ line

/-- The heading of a block. -/
def heading (b : Block) : String :=
  label b.start ++ ":"

/-- The instructions. -/
def instructions (resolver : Resolver) (is : List Instruction) : String :=
  ofLines (is.map (·.render resolver))

/-- The blocks, each with its entries and instructions. -/
def blocks (resolver : Resolver) (bs : List Block) : String :=
  ofLines <| bs.flatMap fun b =>
    heading b :: (b.entries.map fun entry => indent ("// from " ++ entry.text)) ++
      b.instructions.map fun i => indent (i.render resolver)

/-- An edge, below the instruction that consumes it. -/
def edge (e : Edge) : String :=
  indent s!"// pop#{e.input.position} using result of {label e.input.producer}"

/-- The instructions, each with its edges. -/
def edges (resolver : Resolver) (set : EdgeSet) (is : List Instruction) : String :=
  ofLines <| is.flatMap fun i => i.render resolver :: (set.sources i.offset).map edge

/-- The value that a store takes, with each alternative in parentheses. -/
def storedValue (v : View) (offset : Nat) : String :=
  let alternatives := v.alternatives offset 0
  if alternatives.isEmpty then View.unknown
  else " or ".intercalate (alternatives.map fun text => "(" ++ text ++ ")")

/-- A conditional branch with its inputs and targets. -/
def condition (v : View) (i : Instruction) : String :=
  let arguments := ", ".intercalate (v.arguments i.offset)
  let targets := ", ".intercalate (i.targets.map label)
  let goto := if i.opcode.isSwitch then "" else "goto "
  s!"{i.name}({arguments}) {goto}{targets}"

/-- The statement that an instruction is, if it is one. -/
def statement? (v : View) (i : Instruction) : Option String :=
  if i.isLocalStore then
    i.localIndex?.map fun index => s!"local_{index} = {storedValue v i.offset}"
  else if i.opcode.isCallSite then
    if v.edges.isConsumed i.offset then none else some (v.describe i.offset)
  else if i.opcode.isReturn then
    match v.input? i.offset 0 with
    | some value => some ("return " ++ value)
    | none => some "return"
  else
    match i.flow with
    | .conditionalBranch => some (condition v i)
    | .unconditionalBranch => i.branchTarget?.map fun target => "goto " ++ label target
    | _ => none

/-- The blocks, each with its statements. -/
def statements (v : View) (bs : List Block) : String :=
  ofLines <| bs.flatMap fun b =>
    heading b :: (b.instructions.filterMap (statement? v)).map indent

end Provenance.Listing
